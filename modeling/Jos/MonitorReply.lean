import Jos.Monitor

/-! The replies of the monitor to a command line, as text. -/

namespace Jos

def helpReply : List Word :=
  commands.flatMap fun cmd =>
    shown cmd.name.bytes ++ ((cstr " - ").plain ++ (shown cmd.desc.bytes ++ (cstr "\n").plain))

def symbolReply (name : CString) (a : Word) : List Word :=
  name.plain ++ (address a.toNat ++ ((cstr " (virt)  ").plain ++
    (address (a.toNat - KERNBASE) ++ (cstr " (phys)\n").plain)))

/-- The footprint is in kilobytes, rounded up. -/
def Symbols.reply (s : Symbols) : List (List Word) :=
  [(cstr "Special kernel symbols:\n").plain,
    (cstr "  _start                  ").plain ++
      (address (s.entry.toNat - KERNBASE) ++ (cstr " (phys)\n").plain),
    symbolReply (cstr "  entry  ") s.entry, symbolReply (cstr "  etext  ") s.etext,
    symbolReply (cstr "  edata  ") s.edata, symbolReply (cstr "  end    ") s.end_,
    (cstr "Kernel executable memory footprint: ").plain ++
      (digits 10 ((s.end_.toNat - s.entry.toNat + 1023) / 1024) ++ (cstr "KB\n").plain)]

theorem prints_calls {rom : Rom} {call : CString × List Word} {calls : List Word}
    (h : putchCalls rom call.1 call.2 = some calls) (con : Console) :
    prints rom con call = some (cputs calls con) := by
  simp [prints, cprintf_calls h]

theorem foldlM_prints {rom : Rom} {calls : List (CString × List Word)} {texts : List (List Word)}
    (h : List.Forall₂ (fun call text => putchCalls rom call.1 call.2 = some text) calls texts)
    (con : Console) :
    calls.foldlM (prints rom) con = some (cputs texts.flatten con) := by
  induction h generalizing con with
  | nil => rfl
  | cons hcall _ ih => simp [prints_calls hcall, ih]

theorem command_length : ∀ s ∈ literals, s.bytes.length < 2 ^ 31 := by
  have hall : ∀ s ∈ literals, s.bytes.length < 64 := by decide +kernel
  exact fun s hs => (hall s hs).trans (by decide)

namespace Kernel

variable (k : Kernel)

theorem string_placed {s : CString} {p : Word} (h : Placed k.byte k.buf s p) (line : Nat → Byte) :
    s.object <+: (k.rom line).string p := by
  rw [Rom.string, if_neg h.nonnull]
  exact k.placed_prefix h line

theorem string_literal {s : CString} (hs : s ∈ literals) (line : Nat → Byte) :
    s.object <+: (k.rom line).string (k.literal s) :=
  k.string_placed (k.placed s hs) line

theorem monHelp_eq (line : Nat → Byte) (con : Console) :
    k.monHelp (k.rom line) con = some (0, cputs helpReply con) := by
  have hformat : cstr "%s - %s\n" = cstr "%s" ++ (cstr " - " ++ (cstr "%s" ++ cstr "\n")) := by
    ext1
    decide +kernel
  have hname : ∀ cmd ∈ commands, cmd.name ∈ literals ∧ cmd.desc ∈ literals := fun cmd hcmd =>
    ⟨List.mem_append_left _ (List.mem_cons_of_mem _ (List.mem_flatMap.mpr ⟨cmd, hcmd, by simp⟩)),
      List.mem_append_left _ (List.mem_cons_of_mem _ (List.mem_flatMap.mpr ⟨cmd, hcmd, by simp⟩))⟩
  have hline : ∀ cmd ∈ commands, putchCalls (k.rom line) (cstr "%s - %s\n")
      [k.literal cmd.name, k.literal cmd.desc] =
        some (shown cmd.name.bytes ++ ((cstr " - ").plain ++
          (shown cmd.desc.bytes ++ (cstr "\n").plain))) := by
    intro cmd hcmd
    obtain ⟨hn, hd⟩ := hname cmd hcmd
    have hend : putchCalls (k.rom line) (cstr "\n") [] = _ := putchCalls_plain _ (by decide +kernel)
    have hdesc :=
      putchCalls_string_then (k.rom line) hend (k.string_literal hd line) (command_length _ hd)
    have hdash := putchCalls_plain_then (k.rom line) hdesc (by decide +kernel : (cstr " - ").NoPercent)
    rw [hformat]
    exact putchCalls_string_then (k.rom line) hdash (k.string_literal hn line) (command_length _ hn)
  have hall : List.Forall₂ (fun call text => putchCalls (k.rom line) call.1 call.2 = some text)
      (commands.map fun cmd => (cstr "%s - %s\n", [k.literal cmd.name, k.literal cmd.desc]))
      (commands.map fun cmd => shown cmd.name.bytes ++ ((cstr " - ").plain ++
        (shown cmd.desc.bytes ++ (cstr "\n").plain))) := by
    rw [List.forall₂_map_left_iff, List.forall₂_map_right_iff]
    exact List.forall₂_same.mpr hline
  have hfold := foldlM_prints hall con
  rw [List.foldlM_map] at hfold
  rw [monHelp, hfold]
  rfl

end Kernel

namespace Symbols

theorem sub_kernbase {a : Word} (h : KERNBASE ≤ a.toNat) :
    (a - BitVec.ofNat 32 KERNBASE).toNat = a.toNat - KERNBASE :=
  toNat_sub_ofNat_of_le h

variable (rom : Rom)

theorem symbolLine {name format : CString} (hname : name.NoPercent)
    (hformat : format = name ++ (cstr "%08x" ++ (cstr " (virt)  " ++ (cstr "%08x" ++ cstr " (phys)\n"))))
    {a : Word} (h : KERNBASE ≤ a.toNat) :
    putchCalls rom format [a, a - BitVec.ofNat 32 KERNBASE] = some (symbolReply name a) := by
  have hphys : putchCalls rom (cstr " (phys)\n") [] = _ := putchCalls_plain _ (by decide +kernel)
  have hlow := putchCalls_address_then rom hphys (a - BitVec.ofNat 32 KERNBASE)
  have hvirt := putchCalls_plain_then rom hlow (by decide +kernel : (cstr " (virt)  ").NoPercent)
  have hhigh := putchCalls_address_then rom hvirt a
  rw [hformat, putchCalls_plain_then rom hhigh hname, symbolReply, sub_kernbase h]

theorem startLine {a : Word} (h : KERNBASE ≤ a.toNat) :
    putchCalls rom (cstr "  _start                  %08x (phys)\n") [a - BitVec.ofNat 32 KERNBASE] =
      some ((cstr "  _start                  ").plain ++
        (address (a.toNat - KERNBASE) ++ (cstr " (phys)\n").plain)) := by
  have hformat : cstr "  _start                  %08x (phys)\n" =
      cstr "  _start                  " ++ (cstr "%08x" ++ cstr " (phys)\n") := by
    ext1
    decide +kernel
  have hphys : putchCalls rom (cstr " (phys)\n") [] = _ := putchCalls_plain _ (by decide +kernel)
  have haddress := putchCalls_address_then rom hphys (a - BitVec.ofNat 32 KERNBASE)
  rw [hformat, putchCalls_plain_then rom haddress (by decide +kernel), sub_kernbase h]

variable (s : Symbols)

/-- No rounding up of the footprint wraps: the kernel is linked above `KERNBASE`. -/
theorem footprint_eq : integer ((ROUNDUP (s.end_ - s.entry) 1024).sdiv 1024) =
    digits 10 ((s.end_.toNat - s.entry.toNat + 1023) / 1024) := by
  have hle : s.entry.toNat ≤ s.end_.toNat := s.text.trans (s.data.trans s.bss)
  have hbase : 0xF0000000 ≤ s.entry.toNat := s.base
  have hlt := s.end_.isLt
  have hsub : (s.end_ - s.entry).toNat = s.end_.toNat - s.entry.toNat :=
    BitVec.toNat_sub_of_le (BitVec.le_def.mpr hle)
  have hup : (ROUNDUP (s.end_ - s.entry) 1024).toNat =
      (s.end_.toNat - s.entry.toNat + 1023) / 1024 * 1024 := by
    have hn : (1024 : Word).toNat = 1024 := rfl
    rw [ROUNDUP, toNat_ROUNDDOWN, toNat_sum _ _ (by decide), hn, hsub, if_pos (by omega)]
    omega
  have hint : (ROUNDUP (s.end_ - s.entry) 1024).toInt =
      ((s.end_.toNat - s.entry.toNat + 1023) / 1024 * 1024 : Nat) := by
    rw [BitVec.toInt_eq_toNat_cond, hup, if_pos (by omega)]
  have hn : (1024 : Word).toInt = 1024 := rfl
  apply integer_of_toInt
  rw [BitVec.toInt_sdiv_of_ne_or_ne _ _ (.inr (by decide)), hint, hn, Int.natCast_mul]
  exact Int.mul_tdiv_cancel _ (by decide)

theorem footprintLine :
    putchCalls rom (cstr "Kernel executable memory footprint: %dKB\n")
      [(ROUNDUP (s.end_ - s.entry) 1024).sdiv 1024] =
        some ((cstr "Kernel executable memory footprint: ").plain ++
          (digits 10 ((s.end_.toNat - s.entry.toNat + 1023) / 1024) ++ (cstr "KB\n").plain)) := by
  have hformat : cstr "Kernel executable memory footprint: %dKB\n" =
      cstr "Kernel executable memory footprint: " ++ (cstr "%d" ++ cstr "KB\n") := by
    ext1
    decide +kernel
  have hunit : putchCalls rom (cstr "KB\n") [] = _ := putchCalls_plain _ (by decide +kernel)
  have hnumber := putchCalls_integer_then rom hunit ((ROUNDUP (s.end_ - s.entry) 1024).sdiv 1024)
  rw [hformat, putchCalls_plain_then rom hnumber (by decide +kernel), footprint_eq]

theorem report_eq :
    List.Forall₂ (fun call text => putchCalls rom call.1 call.2 = some text) s.report s.reply := by
  have hetext := s.base.trans s.text
  have hedata := hetext.trans s.data
  have hend := hedata.trans s.bss
  refine .cons (putchCalls_plain rom (by decide +kernel)) (.cons (startLine rom s.base)
    (.cons (symbolLine rom (by decide +kernel) ?_ s.base)
      (.cons (symbolLine rom (by decide +kernel) ?_ hetext)
      (.cons (symbolLine rom (by decide +kernel) ?_ hedata)
        (.cons (symbolLine rom (by decide +kernel) ?_ hend) (.cons (footprintLine rom s) .nil))))))
  all_goals
    ext1
    dsimp only
    decide +kernel

end Symbols

namespace Kernel

variable (k : Kernel)

theorem monKerninfo_eq (rom : Rom) (con : Console) :
    k.monKerninfo rom con = some (0, cputs k.symbols.reply.flatten con) := by
  rw [monKerninfo, foldlM_prints (k.symbols.report_eq rom)]
  rfl

end Kernel

theorem putchCalls_tooMany (rom : Rom) :
    putchCalls rom (cstr "Too many arguments (max %d)\n") [BitVec.ofNat 32 MAXARGS] =
      some (cstr "Too many arguments (max 16)\n").plain := by
  have hformat : cstr "Too many arguments (max %d)\n" =
      cstr "Too many arguments (max " ++ (cstr "%d" ++ cstr ")\n") := by
    ext1
    decide +kernel
  have hend : putchCalls rom (cstr ")\n") [] = _ := putchCalls_plain _ (by decide +kernel)
  have hnumber := putchCalls_integer_then rom hend (BitVec.ofNat 32 MAXARGS)
  have hdigits : (BitVec.ofNat 32 MAXARGS).toInt = (16 : Nat) := rfl
  rw [hformat, putchCalls_plain_then rom hnumber (by decide +kernel), integer_of_toInt hdigits]
  have hsixteen : numeral 10 16 = [1, 6] := by
    rw [numeral_of_le (by decide) (by decide), numeral_of_lt (by decide)]
    rfl
  rw [digits, hsixteen]
  decide +kernel

theorem putchCalls_unknown (rom : Rom) {s : CString} {p : Word} (hs : s.object <+: rom.string p)
    (hlen : s.bytes.length < 2 ^ 31) :
    putchCalls rom (cstr "Unknown command '%s'\n") [p] =
      some ((cstr "Unknown command '").plain ++ (shown s.bytes ++ (cstr "'\n").plain)) := by
  have hformat : cstr "Unknown command '%s'\n" =
    cstr "Unknown command '" ++ (cstr "%s" ++ cstr "'\n") := by
    ext1
    decide +kernel
  have hend : putchCalls rom (cstr "'\n") [] = _ := putchCalls_plain _ (by decide +kernel)
  have hname := putchCalls_string_then rom hend hs hlen
  rw [hformat, putchCalls_plain_then rom hname (by decide +kernel)]

end Jos
