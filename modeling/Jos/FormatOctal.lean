import Jos.FormatWidth

/-! `%o`, which is still to be written: it prints `XXX` and takes no argument. -/

namespace Jos

theorem putchCalls_o (rom : Rom) {settings : List Setting} {esc : Escape} (h : Comes settings esc)
    (rest : CString) (ap : List Word) :
    putchCalls rom (escape settings (cstr "o") ++ rest) ap =
      (putchCalls rom rest ap).map ([0x58, 0x58, 0x58] ++ ·) := by
  rw [putchCalls_escape_then rom h.written (by decide : (cstr "o").bytes = [chr 'o'])
    (by decide : switchCase (chr 'o') = .conversion .octal) (by decide) (h.fold ap)]
  rfl

/-- `%o` prints the numeral in base 8 as `%x` does in base 16, and then the rest of
the format what it prints of the arguments after it. -/
def PrintsOctal (rom : Rom) (zero : Bool) (width : Option Nat) (longs : Longs) (v : BitVec 64)
    (rest : CString) (ap calls : List Word) : Prop :=
  putchCalls rom (escape (numberSettings zero width longs) (cstr "o") ++ rest) (longs.args v ++ ap) =
    some (padding (padChar zero) (width.elim (-1) fun w => w)
      (numeral 8 (v.toNat % 2 ^ longs.bits)).length ++ digits 8 (v.toNat % 2 ^ longs.bits) ++ calls)

theorem not_mem_padding (zero : Bool) (width : Int) (len : Nat) :
    0x58 ∉ padding (padChar zero) width len := by
  intro hmem
  have hpad := List.eq_of_mem_replicate hmem
  revert hpad
  cases zero <;> decide

theorem not_mem_digits {base : Nat} (hb : 2 ≤ base) (hb' : base ≤ 16) (num : Nat) :
    0x58 ∉ digits base num := by
  intro hmem
  obtain ⟨d, hd, hword⟩ := List.mem_map.mp hmem
  have hall : ∀ d < 16, digitWord d ≠ 0x58 := by decide
  exact hall d ((numeral_lt hb hd).trans_le hb') hword

/-- Whatever the rest prints, the numeral is not there. -/
theorem octal_unprinted (rom : Rom) (zero : Bool) (width : Option Nat) (longs : Longs) (v : BitVec 64)
    (rest : CString) (ap calls : List Word) (hwidth : WidthInRange width) :
    ¬ PrintsOctal rom zero width longs v rest ap calls := by
  intro h
  rw [PrintsOctal, putchCalls_o rom (comes_number zero hwidth longs)] at h
  obtain ⟨calls', -, heq⟩ := Option.map_eq_some_iff.mp h
  obtain ⟨d, ds, hd⟩ := List.exists_cons_of_ne_nil (numeral_ne_nil 8 (v.toNat % 2 ^ longs.bits))
  have hmem : (0x58 : Word) ∈ padding (padChar zero) (width.elim (-1) fun w => w)
      (numeral 8 (v.toNat % 2 ^ longs.bits)).length ++ digits 8 (v.toNat % 2 ^ longs.bits) := by
    have hne : padding (padChar zero) (width.elim (-1) fun w => w)
        (numeral 8 (v.toNat % 2 ^ longs.bits)).length ++ digits 8 (v.toNat % 2 ^ longs.bits) ≠ [] := by
      simp [digits, hd]
    obtain ⟨c, cs, hc⟩ := List.exists_cons_of_ne_nil hne
    rw [hc] at heq ⊢
    rw [(List.cons_eq_cons.mp heq).1]
    exact List.mem_cons_self
  rcases List.mem_append.mp hmem with hpad | hdigit
  · exact not_mem_padding zero _ _ hpad
  · exact not_mem_digits (by decide) (by decide) _ hdigit

theorem octal_unprinted_init :
    ¬ PrintsOctal default false none .none 6828 (cstr " octal!\n") [] ((cstr " octal!\n").bytes.map
      (BitVec.setWidth 32)) :=
  octal_unprinted default false none .none 6828 (cstr " octal!\n") [] _ (by simp [WidthInRange])

/-- `%o%u` of 6828 and 7 prints `XXX6828`. -/
theorem octal_takes_no_argument :
    ¬ ∀ (rom : Rom) (zero : Bool) (width : Option Nat) (longs : Longs) (v : BitVec 64) (rest : CString)
      (ap calls : List Word), WidthInRange width → putchCalls rom rest ap = some calls →
        PrintsOctal rom zero width longs v rest ap calls := by
  intro h
  have hprints :=
    h default false none .none 6828 (cstr "%u") [7] [0x37] (by simp [WidthInRange]) (by decide)
  have hnone : WidthInRange none := by simp [WidthInRange]
  have hrest : putchCalls default (cstr "%u") [6828, 7] = some [0x36, 0x38, 0x32, 0x38] := by decide
  rw [PrintsOctal, putchCalls_o default (comes_number false hnone .none)] at hprints
  have hcode : putchCalls default (cstr "%u") (Longs.none.args 6828 ++ [7]) =
      some [0x36, 0x38, 0x32, 0x38] := hrest
  rw [hcode] at hprints
  revert hprints
  decide

end Jos
