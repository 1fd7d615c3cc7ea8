import Jos.FormatString

/-! `vsnprintf`: the sink that fills a buffer. Whatever the formatter hands it,
it keeps the first characters and counts them all. -/

namespace Jos

def E_INVAL : Int := 3

/-- `struct sprintbuf`, and the memory its pointers point into. -/
structure Sprintbuf where
  mem : Memory
  buf : Word
  ebuf : Word
  cnt : Int

def sprintputch (ch : Word) (b : Sprintbuf) : Sprintbuf :=
  let b := { b with cnt := wrap32 (b.cnt + 1) }
  if b.buf < b.ebuf then
    { b with mem := b.mem.store b.buf.toNat (ch.setWidth 8), buf := b.buf + 1 }
  else b

def vsnprintf (mem : Memory) (buf : Word) (n : Int) (rom : Rom) (fmt : CString)
    (ap : List Word) : Option (Int × Memory) :=
  let b : Sprintbuf := ⟨mem, buf, buf + BitVec.ofInt 32 n - 1, 0⟩
  if buf = 0 ∨ n < 1 then some (-E_INVAL, mem)
  else (vprintfmt sprintputch rom fmt ap b).map fun b => (b.cnt, b.mem.store b.buf.toNat 0)

theorem foldl_sprintputch_cnt (calls : List Word) {b : Sprintbuf} {k : Nat} (h : b.cnt = wrap32 k) :
    (calls.foldl (fun b c => sprintputch c b) b).cnt = wrap32 (k + calls.length : Nat) := by
  induction calls generalizing b k with
  | nil => simpa using h
  | cons c calls ih =>
    have hc : (sprintputch c b).cnt = wrap32 (k + 1 : Nat) := by
      simp only [sprintputch, apply_ite Sprintbuf.cnt, h, ite_self]
      simp [wrap32]
    rw [List.foldl_cons, ih hc, List.length_cons]
    congr 2
    omega

/-- It counts every character, wherever the pointers are. -/
theorem vsnprintf_cnt (m : Memory) {buf : Word} {n : Int} (hbuf : buf ≠ 0) (hn : 1 ≤ n) {rom : Rom}
    {fmt : CString} {ap calls : List Word} (hcalls : putchCalls rom fmt ap = some calls) :
    ∃ m', vsnprintf m buf n rom fmt ap = some (wrap32 calls.length, m') := by
  have hok : ¬ (buf = 0 ∨ n < 1) := by
    rw [not_or, not_lt]
    exact ⟨hbuf, hn⟩
  rw [vsnprintf, if_neg hok, vprintfmt_eq_calls, hcalls, Option.map_some, Option.map_some,
    foldl_sprintputch_cnt calls (k := 0) rfl, Nat.zero_add]
  exact ⟨_, rfl⟩

/-- The buffer at `base` with room for `room` characters holds the first of
those handed out so far, and the rest of memory is as it was. -/
structure Filled (m : Memory) (base room : Nat) (calls : List Word) (b : Sprintbuf) : Prop where
  ebuf : b.ebuf.toNat = base + room
  buf : b.buf.toNat = base + min calls.length room
  chars : ∀ i (h : i < calls.length), i < room → b.mem.byte (base + i) = calls[i].setWidth 8
  within : Memory.Within base (base + min calls.length room) m b.mem

theorem Filled.sprintputch {m : Memory} {base room : Nat} {calls : List Word} {b : Sprintbuf}
    (h : Filled m base room calls b) (c : Word) :
    Filled m base room (calls ++ [c]) (sprintputch c b) := by
  have hbuf := h.buf
  have hebuf := h.ebuf
  have hlen : (calls ++ [c]).length = calls.length + 1 := by simp
  by_cases hroom : calls.length < room
  · have hlt : b.buf < b.ebuf := BitVec.lt_def.mpr (by omega)
    have hend : b.buf.toNat = base + calls.length := by omega
    have hnext : (b.buf + 1).toNat = base + (calls.length + 1) := by
      have := b.ebuf.isLt
      rw [BitVec.toNat_add, hend, show BitVec.toNat (1 : Word) = 1 from rfl]
      omega
    simp only [Jos.sprintputch, if_pos hlt]
    refine ⟨hebuf, hnext.trans ?_, fun i hi hr => ?_, ?_⟩
    · rw [hlen]
      omega
    · rcases Nat.lt_succ_iff_lt_or_eq.mp (by simpa using hi) with hi' | rfl
      · rw [Memory.store_byte_ne (by omega), h.chars i hi' hr, List.getElem_append_left hi']
      · rw [← hend, Memory.store_byte_same]
        simp
    · rw [hlen]
      refine (h.within.mono le_rfl (by omega)).trans ?_
      exact Memory.within_store _ _ (by omega) (by omega)
  · have hge : ¬ b.buf < b.ebuf := by
      rw [BitVec.lt_def]
      omega
    simp only [Jos.sprintputch, if_neg hge]
    refine ⟨hebuf, hbuf.trans ?_, fun i hi hr => ?_, h.within.mono le_rfl ?_⟩
    · rw [hlen]
      omega
    · rw [h.chars i (by omega) hr, List.getElem_append_left (by omega)]
    · rw [hlen]
      omega

theorem Filled.foldl {m : Memory} {base room : Nat} {calls : List Word} {b : Sprintbuf}
    (h : Filled m base room calls b) (new : List Word) :
    Filled m base room (calls ++ new) (new.foldl (fun b c => Jos.sprintputch c b) b) := by
  induction new generalizing calls b with
  | nil => simpa using h
  | cons c new ih => simpa using ih (h.sprintputch c)

/-- A buffer that ends by the end of the address space keeps `ebuf` from
wrapping. -/
theorem filled_start (m : Memory) {buf : Word} {n : Int} {room : Nat} (hn : n = room + 1)
    (hend : buf.toNat + n ≤ 2 ^ 32) :
    Filled m buf.toNat room [] ⟨m, buf, buf + BitVec.ofInt 32 n - 1, 0⟩ := by
  have hebuf : (buf + BitVec.ofInt 32 n - 1).toNat = buf.toNat + room := by
    have hofInt : (BitVec.ofInt 32 n).toNat = (room + 1) % 2 ^ 32 := by
      rw [hn, BitVec.toNat_ofInt]
      omega
    rw [BitVec.toNat_sub, BitVec.toNat_add, hofInt, show BitVec.toNat (1 : Word) = 1 from rfl]
    have := buf.isLt
    omega
  exact ⟨hebuf, by simp, by simp, .refl _ _ _⟩

theorem vsnprintf_filled (m : Memory) {buf : Word} {n : Int} (hbuf : buf ≠ 0) (hn : 1 ≤ n)
    (hend : buf.toNat + n ≤ 2 ^ 32) {rom : Rom} {fmt : CString} {ap calls : List Word}
    (hcalls : putchCalls rom fmt ap = some calls) :
    ∃ b, Filled m buf.toNat (n - 1).toNat calls b ∧
      vsnprintf m buf n rom fmt ap = some (b.cnt, b.mem.store b.buf.toNat 0) := by
  have hok : ¬ (buf = 0 ∨ n < 1) := by
    rw [not_or, not_lt]
    exact ⟨hbuf, hn⟩
  refine ⟨_, (filled_start m (by omega) hend).foldl calls, ?_⟩
  rw [vsnprintf, if_neg hok, vprintfmt_eq_calls, hcalls]
  rfl

def kept (n : Int) (calls : List Word) : List Byte :=
  (calls.take (n - 1).toNat).map (BitVec.setWidth 8)

theorem kept_length (n : Int) (calls : List Word) :
    (kept n calls).length = min calls.length (n - 1).toNat := by
  simp [kept, Nat.min_comm]

theorem vsnprintf_kept (m : Memory) {buf : Word} {n : Int} (hbuf : buf ≠ 0) (hn : 1 ≤ n)
    (hend : buf.toNat + n ≤ 2 ^ 32) {rom : Rom} {fmt : CString} {ap calls : List Word}
    (hcalls : putchCalls rom fmt ap = some calls) (hlen : calls.length < 2 ^ 31) :
    ∃ m', vsnprintf m buf n rom fmt ap = some ((calls.length : Int), m') ∧
      m'.view buf.toNat (kept n calls).length = kept n calls ∧
      m'.byte (buf.toNat + (kept n calls).length) = 0 ∧
      (∀ a, a < buf.toNat ∨ buf.toNat + (kept n calls).length + 1 ≤ a → m'.byte a = m.byte a) ∧
      ∃ new, m'.stores = new ++ m.stores ∧ ∀ a ∈ new, buf.toNat ≤ a ∧ a < buf.toNat + n := by
  obtain ⟨b, hf, hret⟩ := vsnprintf_filled m hbuf hn hend hcalls
  have hnul := hf.buf
  have hk := kept_length n calls
  have hcnt : b.cnt = calls.length := by
    obtain ⟨m'', hcount⟩ := vsnprintf_cnt m hbuf hn hcalls
    rw [(Prod.mk.inj (Option.some.inj (hret.symm.trans hcount))).1]
    exact Int.bmod_eq_of_le (by omega) (by omega)
  refine ⟨b.mem.store b.buf.toNat 0, by rw [hret, hcnt], ?_, ?_, fun a ha => ?_, ?_⟩
  · refine List.ext_getElem (by simp) fun i h₁ h₂ => ?_
    rw [Memory.view_getElem, Memory.store_byte_ne (by omega), hf.chars i (by omega) (by omega)]
    simp [kept]
  · rw [hk, ← hnul]
    exact Memory.store_byte_same _ _ _
  · rw [Memory.store_byte_ne (by omega)]
    exact hf.within.frame a (by omega)
  · obtain ⟨new, hnew, hin⟩ := hf.within.logged
    refine ⟨_ :: new, by rw [List.cons_append, ← hnew]; rfl, fun a ha => ?_⟩
    rcases List.mem_cons.mp ha with rfl | ha
    · omega
    · have := hin a ha
      omega

/-- The format is among the bytes that the formatter reads, and all of these
lie outside the addresses from `lo` up to `hi`. -/
structure Rom.Apart (rom : Rom) (fmt : CString) (lo hi : Nat) : Prop where
  format : ∃ p, fmt.object <+: rom.bytes p
  outside : ∀ p i, i < (rom.bytes p).length →
    (p + BitVec.ofNat 32 i).toNat < lo ∨ hi ≤ (p + BitVec.ofNat 32 i).toNat

/-- `vsnprintf` truncates and does nothing else. No byte that it stores is one
that the formatter reads, so what it reads stays as it was. -/
theorem vsnprintf_truncates (m : Memory) (buf : Word) (n : Int) (rom : Rom) (fmt : CString)
    (ap : List Word) :
    (buf ≠ 0 → 1 ≤ n → buf.toNat + n ≤ 2 ^ 32 → rom.Apart fmt buf.toNat (buf.toNat + n.toNat) →
      ∀ calls, putchCalls rom fmt ap = some calls → calls.length < 2 ^ 31 →
      ∃ m', vsnprintf m buf n rom fmt ap = some ((calls.length : Int), m') ∧
        m'.view buf.toNat (kept n calls).length = kept n calls ∧
        m'.byte (buf.toNat + (kept n calls).length) = 0 ∧
        (∀ a, a < buf.toNat ∨ buf.toNat + (kept n calls).length + 1 ≤ a →
          m'.byte a = m.byte a) ∧
        ∃ new, m'.stores = new ++ m.stores ∧ ∀ a ∈ new, buf.toNat ≤ a ∧ a < buf.toNat + n ∧
          ∀ p i, i < (rom.bytes p).length → (p + BitVec.ofNat 32 i).toNat ≠ a) ∧
    (buf = 0 ∨ n < 1 → vsnprintf m buf n rom fmt ap = some (-E_INVAL, m)) := by
  refine ⟨fun hbuf hn hend hapart calls hcalls hlen => ?_, fun hbad => by
    rw [vsnprintf, if_pos hbad]⟩
  obtain ⟨m', hret, hview, hnul, hframe, new, hnew, hin⟩ :=
    vsnprintf_kept m hbuf hn hend hcalls hlen
  refine ⟨m', hret, hview, hnul, hframe, new, hnew, fun a ha => ?_⟩
  obtain ⟨hlo, hhi⟩ := hin a ha
  refine ⟨hlo, hhi, fun p i hi => ?_⟩
  have := hapart.outside p i hi
  omega

theorem errorText_bounds {k : Nat} {t : CString} (h : errorText k = some t) :
    k < MAXERROR ∧ t.object.length ≤ 0x100 := by
  unfold errorText at h
  split at h
  all_goals cases h
  all_goals exact ⟨by decide, by decide⟩

/-- `%d` of 42 into two bytes, with the format at 7. -/
theorem vsnprintf_truncates_two :
    ∃ m', vsnprintf ⟨fun _ => 0xFF, []⟩ 0x1000 2
        ((default : Rom).hold 7 (cstr "%d").object (by decide)) (cstr "%d") [42] = some (2, m') ∧
      m'.byte 0x1000 = chr '4' ∧ m'.byte 0x1001 = 0 ∧ m'.byte 0x1002 = 0xFF := by
  have hcalls : putchCalls ((default : Rom).hold 7 (cstr "%d").object (by decide)) (cstr "%d") [42] =
      some [0x34, 0x32] := by decide
  have hapart : ((default : Rom).hold 7 (cstr "%d").object (by decide)).Apart (cstr "%d") 0x1000
      0x1002 := by
    refine ⟨⟨7, List.prefix_rfl⟩, fun p i hi => .inl ?_⟩
    have hin : p.toNat < 8 ∧ i < 0x100 := by
      rcases eq_or_ne p 7 with rfl | hp
      · exact ⟨by decide, lt_of_lt_of_le hi (by decide)⟩
      · change i < (if p = 7 then (cstr "%d").object
          else (errorText p.toNat).elim [] CString.object).length at hi
        rw [if_neg hp] at hi
        cases ht : errorText p.toNat with
        | none =>
          rw [ht] at hi
          exact absurd hi (Nat.not_lt_zero i)
        | some t =>
          rw [ht] at hi
          obtain ⟨hlt, hlen⟩ := errorText_bounds ht
          exact ⟨Nat.lt_succ_of_lt hlt, hi.trans_le hlen⟩
    rw [BitVec.toNat_add, BitVec.toNat_ofNat]
    omega
  obtain ⟨m', hret, hview, hnul, hframe, -⟩ := (vsnprintf_truncates ⟨fun _ => 0xFF, []⟩ 0x1000 2
    ((default : Rom).hold 7 (cstr "%d").object (by decide)) (cstr "%d") [42]).1 (by decide)
    (by decide) (by decide) hapart [0x34, 0x32] hcalls (by decide)
  exact ⟨m', hret, List.head_eq_of_cons_eq hview, hnul, hframe 0x1002 (.inr (by decide))⟩

end Jos
