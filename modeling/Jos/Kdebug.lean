import Jos.Printfmt
import Jos.StabRegion
import Jos.StringFns
import Mathlib.Data.Int.Range

/-! `debuginfo_eip` of `kern/kdebug.c`, and the plain scan of the table that it
agrees with for an address inside a function. -/

namespace Jos

def ULIM : Word := 0xEF800000

structure DebugSections where
  stabs : List Stab
  stabstr : List Byte

/-- A `char` pointer into the string table, or to the literal `<unknown>`. -/
inductive CharPtr where
  | unknown
  | stabstr (off : Nat)
  deriving DecidableEq, Repr

namespace DebugSections

def stab (sec : DebugSections) (i : Int) : Option Stab :=
  if 0 ≤ i then sec.stabs[i.toNat]? else none

/-- The bytes that can be read from the pointer on. -/
def chars (sec : DebugSections) : CharPtr → List Byte
  | .unknown => (cstr "<unknown>").bytes ++ [0]
  | .stabstr off => sec.stabstr.drop off

/-- The string of an entry, if it is in the table. -/
def str (sec : DebugSections) (s : Stab) (p : CharPtr) : CharPtr :=
  if s.nStrx.toNat < sec.stabstr.length then .stabstr s.nStrx.toNat else p

end DebugSections

structure Eipdebuginfo where
  eipFile : CharPtr
  eipLine : Int
  eipFnName : CharPtr
  eipFnNamelen : Int
  eipFnAddr : Word
  eipFnNarg : Int

/-- The name and the address of the function, and where the search for its file
starts. -/
def findFunction (sec : DebugSections) (addr : Word) (lfile lfun rfun : Int) (info : Eipdebuginfo) :
    Option (Eipdebuginfo × Int) :=
  if lfun ≤ rfun then
    (sec.stab lfun).map fun s =>
      ({ info with eipFnName := sec.str s info.eipFnName, eipFnAddr := s.nValue }, lfun)
  else some ({ info with eipFnAddr := addr }, lfile)

/-- `strfind(p, c) - p` -/
def DebugSections.findOffset (sec : DebugSections) (p : CharPtr) (c : Byte) : Option Int :=
  (strfind c (sec.chars p)).map fun s => (sec.chars p).length - s.length

/-- The stabs that name the file of what follows them. -/
def Stab.NamesFile (s : Stab) : Prop := s.Is N_SOL ∨ (s.Is N_SO ∧ s.nValue ≠ 0)

instance (s : Stab) : Decidable s.NamesFile := inferInstanceAs (Decidable (_ ∨ _))

def findFile (sec : DebugSections) (lfile lline : Int) (info : Eipdebuginfo) : Option Eipdebuginfo :=
  (seek sec.stab Stab.NamesFile lfile lline).bind fun lline =>
  if lfile ≤ lline then
    (sec.stab lline).map fun s => { info with eipFile := sec.str s info.eipFile }
  else some info

def nargBody (stabs : Int → Option Stab) (rfun : Int) (st : Int × Int) : Option (Turn (Int × Int) Int) :=
  if st.1 < rfun then
    (stabs st.1).map fun s => if s.Is N_PSYM then .again (st.1 + 1, st.2 + 1) else .leave st.2
  else some (.leave st.2)

def countNarg (sec : DebugSections) (lfun rfun narg : Int) : Option Int :=
  if lfun < rfun then loop (nargBody sec.stab rfun) ((rfun - lfun).toNat + 1) (lfun + 1, narg)
  else some narg

/-- The value returned and what is stored in `*info`, unless it panics or reads
where there is nothing to read. The line number is never looked up. -/
def debuginfoEip (sec : DebugSections) (addr : Word) : Option (Int × Eipdebuginfo) :=
  let info : Eipdebuginfo := ⟨.unknown, 0, .unknown, 9, addr, 0⟩
  if addr < ULIM then none
  else if sec.stabstr.getLast? ≠ some 0 then some (-1, info)
  else
    (stabBinsearch sec.stab 0 (sec.stabs.length - 1) N_SO addr).bind fun (lfile, rfile) =>
    if lfile = 0 then some (-1, info)
    else
      (stabBinsearch sec.stab lfile rfile N_FUN addr).bind fun (lfun, rfun) =>
      (findFunction sec addr lfile lfun rfun info).bind fun (info, lline) =>
      (sec.findOffset info.eipFnName (chr ':')).bind fun namelen =>
      (findFile sec lfile lline { info with eipFnNamelen := namelen }).bind fun info =>
      (countNarg sec lfun rfun info.eipFnNarg).map fun narg => (0, { info with eipFnNarg := narg })

namespace DebugSections

def Has (sec : DebugSections) (p : Stab → Prop) (i : Int) : Prop := ∃ s ∈ sec.stab i, p s

instance (sec : DebugSections) (p : Stab → Prop) [DecidablePred p] (i : Int) :
    Decidable (sec.Has p i) :=
  inferInstanceAs (Decidable (∃ s ∈ sec.stab i, p s))

/-- From the file stab `f` on there is no other one up to entry `i`. -/
def InStretch (sec : DebugSections) (f i : Int) : Prop :=
  f ≤ i ∧ ∀ k, f < k → k ≤ i → ¬ sec.Has (·.Is N_SO) k

instance (sec : DebugSections) (f i : Int) : Decidable (sec.InStretch f i) :=
  inferInstanceAs (Decidable (_ ∧ _))

end DebugSections

structure Symbol where
  file : CharPtr
  fnName : CharPtr
  fnNamelen : Int
  fnAddr : Word
  deriving DecidableEq, Repr

def Eipdebuginfo.symbol (info : Eipdebuginfo) : Symbol :=
  ⟨info.eipFile, info.eipFnName, info.eipFnNamelen, info.eipFnAddr⟩

/-- The file of function `g` in the stretch of file `f`: the last one named there. -/
def DebugSections.fileOf (sec : DebugSections) (f g : Int) : CharPtr :=
  ((lastOf (fun i => sec.InStretch f i ∧ sec.Has Stab.NamesFile i) 0 (g + 1).toNat).bind
    sec.stab).elim .unknown fun s => sec.str s .unknown

def DebugSections.beforeColon (sec : DebugSections) (p : CharPtr) : List Byte :=
  (sec.chars p).takeWhile fun b => b ≠ 0 ∧ b ≠ chr ':'

/-- The last file below `addr`, and the last function below `addr` in its stretch. -/
def linearScan (sec : DebugSections) (addr : Word) : Option Symbol :=
  (lastOf (sec.Has fun s => s.Is N_SO ∧ s.nValue < addr) 0 sec.stabs.length).bind fun f =>
  (lastOf (fun i => sec.InStretch f i ∧ sec.Has (fun s => s.Is N_FUN ∧ s.nValue < addr) i) 0
    sec.stabs.length).bind fun g =>
  (sec.stab g).map fun s =>
    { file := sec.fileOf f g
      fnName := sec.str s .unknown
      fnNamelen := (sec.beforeColon (sec.str s .unknown)).length
      fnAddr := s.nValue }

/-- The tables that a linker makes, and an address inside a function. -/
structure DebugSections.Interior (sec : DebugSections) (addr : Word) : Prop where
  kernel : ULIM ≤ addr
  strings : sec.stabstr.getLast? = some 0
  header : ¬ sec.Has (·.Is N_SO) 0
  files : Ascending (stabKey sec.stab N_SO) 0 (sec.stabs.length - 1)
  functions : ∀ f r, sec.Has (·.Is N_SO) f → sec.InStretch f r →
    Ascending (stabKey sec.stab N_FUN) f r
  inside : ∀ i s, sec.stab i = some s → s.Is N_SO ∨ s.Is N_FUN → s.nValue ≠ addr
  covered : ∃ f g, sec.Has (fun s => s.Is N_SO ∧ s.nValue ≤ addr) f ∧
    (∀ k, f < k → ¬ sec.Has (fun s => s.Is N_SO ∧ s.nValue ≤ addr) k) ∧
    sec.InStretch f g ∧ sec.Has (fun s => s.Is N_FUN ∧ s.nValue ≤ addr) g

section Agreement

variable {sec : DebugSections} {addr : Word}

theorem stab_bounds {i : Int} {s : Stab} (h : sec.stab i = some s) : 0 ≤ i ∧ i < sec.stabs.length := by
  by_cases hi : 0 ≤ i
  · rw [DebugSections.stab, if_pos hi] at h
    have hlt := (List.getElem?_eq_some_iff.mp h).1
    omega
  · rw [DebugSections.stab, if_neg hi] at h
    cases h

theorem stab_defined {i : Int} (h : 0 ≤ i) (hlt : i ≤ sec.stabs.length - 1) : sec.stab i ≠ none := by
  rw [DebugSections.stab, if_pos h, Ne, List.getElem?_eq_none_iff]
  omega

theorem has_bounds {p : Stab → Prop} {i : Int} (h : sec.Has p i) : 0 ≤ i ∧ i < sec.stabs.length := by
  obtain ⟨s, hs, -⟩ := h
  exact stab_bounds hs

theorem has_type_iff {type i : Int} :
    sec.Has (·.Is type) i ↔ ∃ v, stabKey sec.stab type i = some v := by
  constructor
  · rintro ⟨s, hs, his⟩
    exact ⟨_, stabKey_eq_some.mpr ⟨s, hs, his, rfl⟩⟩
  · rintro ⟨v, hv⟩
    obtain ⟨s, hs, his, -⟩ := stabKey_eq_some.mp hv
    exact ⟨s, hs, his⟩

theorem has_below_iff {type i : Int} :
    sec.Has (fun s => s.Is type ∧ s.nValue < addr) i ↔
      ∃ v, stabKey sec.stab type i = some v ∧ v < addr.toNat := by
  constructor
  · rintro ⟨s, hs, his, hlt⟩
    exact ⟨_, stabKey_eq_some.mpr ⟨s, hs, his, rfl⟩, BitVec.lt_def.mp hlt⟩
  · rintro ⟨v, hv, hlt⟩
    obtain ⟨s, hs, his, rfl⟩ := stabKey_eq_some.mp hv
    exact ⟨s, hs, his, BitVec.lt_def.mpr hlt⟩

namespace DebugSections.Interior

theorem key_ne (h : sec.Interior addr) {type : Int} (htype : type = N_SO ∨ type = N_FUN) (i : Int) :
    stabKey sec.stab type i ≠ some addr.toNat := by
  intro hkey
  obtain ⟨s, hs, his, heq⟩ := stabKey_eq_some.mp hkey
  refine h.inside i s hs ?_ (BitVec.eq_of_toNat_eq heq)
  rcases htype with rfl | rfl
  · exact .inl his
  · exact .inr his

theorem below_of_le (h : sec.Interior addr) {type i : Int} (htype : type = N_SO ∨ type = N_FUN)
    (hle : sec.Has (fun s => s.Is type ∧ s.nValue ≤ addr) i) :
    ∃ v, stabKey sec.stab type i = some v ∧ v < addr.toNat := by
  obtain ⟨s, hs, his, hv⟩ := hle
  have hkey : stabKey sec.stab type i = some s.nValue.toNat := stabKey_eq_some.mpr ⟨s, hs, his, rfl⟩
  refine ⟨_, hkey, lt_of_le_of_ne (BitVec.le_def.mp hv) fun heq => ?_⟩
  exact h.key_ne htype i (heq ▸ hkey)

theorem file_search (h : sec.Interior addr) :
    ∃ lfile rfile, stabBinsearch sec.stab 0 (sec.stabs.length - 1) N_SO addr = some (lfile, rfile) ∧
      lfile ≠ 0 ∧ 0 ≤ lfile ∧ lfile ≤ rfile ∧ rfile < sec.stabs.length ∧
      sec.Has (fun s => s.Is N_SO ∧ s.nValue < addr) lfile ∧
      (∀ k, lfile < k → ¬ sec.Has (fun s => s.Is N_SO ∧ s.nValue < addr) k) ∧
      ∀ i : Int, i < sec.stabs.length → (sec.InStretch lfile i ↔ lfile ≤ i ∧ i ≤ rfile) := by
  obtain ⟨f, g, hf, -⟩ := h.covered
  have hbound := has_bounds hf
  obtain ⟨v, hv, hlt⟩ := h.below_of_le (.inl rfl) hf
  obtain ⟨lfile, rfile, hsearch, hlower, hlr, hupper, hfound, hgap, habove, hnext⟩ :=
    stabBinsearch_interior (fun i hi hir => stab_defined hi hir) le_rfl (by omega) h.files
      (fun i _ _ => h.key_ne (.inl rfl) i) ⟨f, v, hbound.1, by omega, hv, hlt⟩
  refine ⟨lfile, rfile, hsearch, ?_, hlower, hlr, by omega, has_below_iff.mpr hfound, ?_, ?_⟩
  · rintro rfl
    obtain ⟨w, hw, -⟩ := hfound
    exact h.header (has_type_iff.mpr ⟨w, hw⟩)
  · intro k hk hhas
    have hkb := has_bounds hhas
    obtain ⟨w, hw, hwlt⟩ := has_below_iff.mp hhas
    exact (habove k w hk (by omega) hw).not_gt hwlt
  · intro i hi
    refine and_congr_right fun hfi => ⟨fun hnone => ?_, fun hir k hfk hki hhas => ?_⟩
    · by_contra hri
      rcases hnext with hlast | ⟨w, hw⟩
      · omega
      · exact hnone (rfile + 1) (by omega) (by omega) (has_type_iff.mpr ⟨w, hw⟩)
    · obtain ⟨w, hw⟩ := has_type_iff.mp hhas
      rw [hgap k (by omega) (by omega)] at hw
      cases hw

theorem function_search (h : sec.Interior addr) {lfile rfile : Int} (h0 : 0 ≤ lfile)
    (hlr : lfile ≤ rfile) (hlen : rfile < sec.stabs.length)
    (hfile : sec.Has (fun s => s.Is N_SO ∧ s.nValue < addr) lfile)
    (hlast : ∀ k, lfile < k → ¬ sec.Has (fun s => s.Is N_SO ∧ s.nValue < addr) k)
    (hstretch : ∀ i : Int, i < sec.stabs.length → (sec.InStretch lfile i ↔ lfile ≤ i ∧ i ≤ rfile)) :
    ∃ lfun rfun, stabBinsearch sec.stab lfile rfile N_FUN addr = some (lfun, rfun) ∧
      lfile ≤ lfun ∧ lfun ≤ rfun ∧ rfun ≤ rfile ∧
      sec.Has (fun s => s.Is N_FUN ∧ s.nValue < addr) lfun ∧
      ∀ k, lfun < k → k ≤ rfile → ¬ sec.Has (fun s => s.Is N_FUN ∧ s.nValue < addr) k := by
  obtain ⟨f, g, hf, hflast, hfg, hg⟩ := h.covered
  have hsame : f = lfile := by
    rcases lt_trichotomy f lfile with hlt | heq | hgt
    · obtain ⟨s, hs, his, hv⟩ := hfile
      exact absurd ⟨s, hs, his, BitVec.le_of_lt hv⟩ (hflast lfile hlt)
    · exact heq
    · exact absurd (has_below_iff.mpr (h.below_of_le (.inl rfl) hf)) (hlast f hgt)
  rw [hsame, hstretch g (has_bounds hg).2] at hfg
  obtain ⟨v, hv, hlt⟩ := h.below_of_le (.inr rfl) hg
  have hso : sec.Has (·.Is N_SO) lfile := by
    obtain ⟨s, hs, his, -⟩ := hfile
    exact ⟨s, hs, his⟩
  have hasc := h.functions lfile rfile hso ((hstretch rfile hlen).mpr ⟨hlr, le_rfl⟩)
  obtain ⟨lfun, rfun, hsearch, hlower, hfun, hupper, hfound, -, habove, -⟩ :=
    stabBinsearch_interior (fun i hi hir => stab_defined (by omega) (by omega)) h0 hlr hasc
      (fun i _ _ => h.key_ne (.inr rfl) i) ⟨g, v, hfg.1, hfg.2, hv, hlt⟩
  refine ⟨lfun, rfun, hsearch, hlower, hfun, hupper, has_below_iff.mpr hfound, fun k hk hkr hhas => ?_⟩
  obtain ⟨w, hw, hwlt⟩ := has_below_iff.mp hhas
  exact (habove k w hk hkr hw).not_gt hwlt

end DebugSections.Interior

theorem zero_mem_chars (hstrings : sec.stabstr.getLast? = some 0) (s : Stab) :
    0 ∈ sec.chars (sec.str s .unknown) := by
  by_cases hs : s.nStrx.toNat < sec.stabstr.length
  · rw [DebugSections.str, if_pos hs, DebugSections.chars]
    apply List.mem_of_getLast?
    rw [List.getLast?_drop, if_neg (by omega), hstrings]
  · rw [DebugSections.str, if_neg hs, DebugSections.chars]
    exact List.mem_append_right _ List.mem_cons_self

theorem findOffset_eq {p : CharPtr} (h : 0 ∈ sec.chars p) :
    sec.findOffset p (chr ':') = some ((sec.beforeColon p).length : Int) := by
  have hlen := congrArg List.length
    (List.takeWhile_append_dropWhile (p := fun b => decide (b ≠ 0 ∧ b ≠ chr ':')) (l := sec.chars p))
  rw [List.length_append] at hlen
  rw [DebugSections.findOffset, strfind_eq _ h, Option.map_some, Option.some.injEq,
    DebugSections.beforeColon]
  omega

theorem findFile_eq {lfile lfun : Int} (h0 : 0 ≤ lfile) (hle : lfile ≤ lfun)
    (hlen : lfun < sec.stabs.length) (hstretch : sec.InStretch lfile lfun) (info : Eipdebuginfo)
    (hinfo : info.eipFile = .unknown) :
    findFile sec lfile lfun info = some { info with eipFile := sec.fileOf lfile lfun } := by
  have hread : ∀ i, lfile ≤ i → i ≤ lfun → sec.stab i ≠ none := fun i hi hif =>
    stab_defined (by omega) (by omega)
  obtain ⟨k, hseek, hge, hkf, hfound, hnone⟩ := seek_spec Stab.NamesFile (by omega) hread
  have hafter : ∀ j, k < j → j < 0 + ((lfun + 1).toNat : Int) →
      ¬ (sec.InStretch lfile j ∧ sec.Has Stab.NamesFile j) := by
    rintro j hkj hj ⟨-, s, hs, hp⟩
    exact hnone j s hkj (by omega) hs hp
  rw [findFile, hseek, Option.bind_some, DebugSections.fileOf, hinfo]
  by_cases hk : lfile ≤ k
  · obtain ⟨s, hs, hp⟩ := hfound hk
    have hin : sec.InStretch lfile k := ⟨hk, fun j hj hjk => hstretch.2 j hj (by omega)⟩
    rw [if_pos hk, hs, lastOf_eq_some (by omega) (by omega) ⟨hin, s, hs, hp⟩ hafter,
      Option.bind_some, hs]
    rfl
  · have hnever : ∀ j, 0 ≤ j → j < 0 + ((lfun + 1).toNat : Int) →
        ¬ (sec.InStretch lfile j ∧ sec.Has Stab.NamesFile j) := by
      intro j _ hj hin
      have hfj := hin.1.1
      exact hafter j (by omega) hj hin
    rw [if_neg hk, lastOf_eq_none hnever, Option.bind_none, Option.elim_none, ← hinfo]

theorem countNarg_defined {lfun rfun : Int} (h0 : 0 ≤ lfun) (hlen : rfun < sec.stabs.length)
    (narg : Int) : ∃ n, countNarg sec lfun rfun narg = some n := by
  by_cases hlt : lfun < rfun
  · rw [countNarg, if_pos hlt]
    have hloop : ∃ n, loop (nargBody sec.stab rfun) ((rfun - lfun).toNat + 1) (lfun + 1, narg) = some n ∧
        True := by
      refine loop_total (fun st => 0 ≤ st.1) (fun st => (rfun - st.1).toNat) ?_
        (by dsimp only; omega) (by dsimp only; omega)
      intro st hst
      by_cases hst' : st.1 < rfun
      · have hdef : sec.stab st.1 ≠ none := stab_defined hst (by omega)
        obtain ⟨s, hs⟩ := Option.ne_none_iff_exists'.mp hdef
        by_cases hps : s.Is N_PSYM
        · refine .inr ⟨_, by rw [nargBody, if_pos hst', hs, Option.map_some, if_pos hps], ?_, ?_⟩
          · dsimp only
            omega
          · dsimp only
            omega
        · exact .inl ⟨_, by rw [nargBody, if_pos hst', hs, Option.map_some, if_neg hps], trivial⟩
      · exact .inl ⟨_, if_neg hst', trivial⟩
    obtain ⟨n, hn, -⟩ := hloop
    exact ⟨n, hn⟩
  · exact ⟨narg, if_neg hlt⟩

/-- For an address inside a function the two binary searches and the scans
backwards find what the plain scan finds. -/
theorem debuginfoEip_linear (sec : DebugSections) (addr : Word) (h : sec.Interior addr) :
    ∃ info, debuginfoEip sec addr = some (0, info) ∧ linearScan sec addr = some info.symbol := by
  obtain ⟨lfile, rfile, hfile, hne, h0, hlr, hlen, hhas, hlast, hstretch⟩ := h.file_search
  obtain ⟨lfun, rfun, hfun, hff, hfr, hrr, hhasf, hlastf⟩ :=
    h.function_search h0 hlr hlen hhas hlast hstretch
  have hin : sec.InStretch lfile lfun := (hstretch lfun (by omega)).mpr ⟨hff, by omega⟩
  obtain ⟨s, hs, -⟩ := id hhasf
  obtain ⟨narg, hnarg⟩ : ∃ n, countNarg sec lfun rfun 0 = some n :=
    countNarg_defined (by omega) (by omega) 0
  have hfirst : lastOf (sec.Has fun s => s.Is N_SO ∧ s.nValue < addr) 0 sec.stabs.length = some lfile :=
    lastOf_eq_some h0 (by omega) hhas fun j hj _ => hlast j hj
  have hsecond : lastOf (fun i => sec.InStretch lfile i ∧
      sec.Has (fun s => s.Is N_FUN ∧ s.nValue < addr) i) 0 sec.stabs.length = some lfun := by
    refine lastOf_eq_some (by omega) (by omega) ⟨hin, hhasf⟩ fun j hj hjn hboth => ?_
    have hjr := ((hstretch j (by omega)).mp hboth.1).2
    exact hlastf j hj hjr hboth.2
  have hkernel : ¬ addr < ULIM := BitVec.not_lt.mpr h.kernel
  refine ⟨⟨sec.fileOf lfile lfun, 0, sec.str s .unknown, (sec.beforeColon (sec.str s .unknown)).length,
    s.nValue, narg⟩, ?_, ?_⟩
  · rw [debuginfoEip]
    dsimp only
    rw [if_neg hkernel, if_neg (not_not.mpr h.strings), hfile, Option.bind_some, if_neg hne, hfun,
      Option.bind_some, findFunction, if_pos hfr, hs, Option.map_some, Option.bind_some,
      findOffset_eq (zero_mem_chars h.strings s), Option.bind_some,
      findFile_eq h0 hff (by omega) hin _ rfl, Option.bind_some, hnarg, Option.map_some]
  · rw [linearScan, hfirst, Option.bind_some, hsecond, Option.bind_some, hs]
    rfl

end Agreement

/-- A header, a file `a`, its functions `f` and `g`, and the end of the file. -/
def oneFile : DebugSections where
  stabs := [⟨0, 0, 0, 4, 0⟩, ⟨1, 0x64, 0, 0, 0xF0100000⟩, ⟨3, 0x24, 0, 0, 0xF0100000⟩,
    ⟨7, 0x24, 0, 0, 0xF0100040⟩, ⟨0, 0x64, 0, 0, 0xF0100080⟩]
  stabstr := [0, chr 'a', 0, chr 'f', chr ':', chr 'F', 0, chr 'g', chr ':', chr 'F', 0]

theorem oneFile_ascending {type : Int} (htype : type = N_SO ∨ type = N_FUN) (f r : Int) :
    Ascending (stabKey oneFile.stab type) f r := by
  intro i j a b _ hij _ ha hb
  have hall : ∀ type ∈ [N_SO, N_FUN], ∀ i, 0 ≤ i → i ≤ 4 → ∀ j, 0 ≤ j → j ≤ 4 → i < j →
      ∀ a ∈ stabKey oneFile.stab type i, ∀ b ∈ stabKey oneFile.stab type j, a ≤ b := by decide
  have hlen : oneFile.stabs.length = 5 := rfl
  obtain ⟨s, hs, -⟩ := stabKey_eq_some.mp ha
  obtain ⟨t, ht, -⟩ := stabKey_eq_some.mp hb
  have his := stab_bounds hs
  have hjt := stab_bounds ht
  exact hall type (by simpa using htype) i (by omega) (by omega) j (by omega) (by omega) hij a ha b hb

theorem oneFile_interior : oneFile.Interior 0xF0100050 where
  kernel := by decide
  strings := by decide
  header := by decide
  files := oneFile_ascending (.inl rfl) _ _
  functions := fun f r _ _ => oneFile_ascending (.inr rfl) f r
  inside := by
    intro i s hs
    have hall : ∀ s ∈ oneFile.stabs, s.Is N_SO ∨ s.Is N_FUN → s.nValue ≠ 0xF0100050 := by decide
    rw [DebugSections.stab, if_pos (stab_bounds hs).1] at hs
    exact hall s (List.mem_of_getElem? hs)
  covered := by
    refine ⟨1, 3, by decide, fun k hk hhas => ?_, by decide, by decide⟩
    have hall : ∀ k, 1 < k → k < 5 →
        ¬ oneFile.Has (fun s => s.Is N_SO ∧ s.nValue ≤ 0xF0100050) k := by decide
    exact hall k hk (has_bounds hhas).2 hhas

theorem debuginfoEip_linear_oneFile :
    ∃ info, debuginfoEip oneFile 0xF0100050 = some (0, info) ∧
      linearScan oneFile 0xF0100050 = some info.symbol :=
  debuginfoEip_linear oneFile 0xF0100050 oneFile_interior

end Jos
