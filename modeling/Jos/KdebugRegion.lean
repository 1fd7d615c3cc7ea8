import Jos.KdebugBounds

/-! What `debuginfo_eip` reports of the region of the function it finds: how many
parameters it counts, and the line. -/

namespace Jos

def N_SLINE : Int := 0x44

namespace DebugSections

/-- `debuginfo_eip` gets to the second search, which answers with a function. -/
structure FindsFunction (sec : DebugSections) (addr : Word) (lfun rfun : Int) : Prop where
  kernel : ULIM ≤ addr
  strings : sec.stabstr.getLast? = some 0
  search : ∃ lfile rfile,
    stabBinsearch sec.stab 0 (sec.stabs.length - 1) N_SO addr = some (lfile, rfile) ∧ lfile ≠ 0 ∧
      stabBinsearch sec.stab lfile rfile N_FUN addr = some (lfun, rfun)
  region : lfun ≤ rfun
  function : sec.Has (·.Is N_FUN) lfun

/-- How many of the entries from `i` on are parameters, of at most `n`, up to the first that is not. -/
def params (sec : DebugSections) (i : Int) : Nat → Nat
  | 0 => 0
  | n + 1 => if sec.Has (·.Is N_PSYM) i then params sec (i + 1) n + 1 else 0

end DebugSections

section Region

variable {sec : DebugSections} {addr : Word} {lfun rfun : Int}

/-- The region begins where the search does, or there is one entry to it. -/
theorem stabBinsearch_left {stabs : Int → Option Stab} {L R left right type : Int}
    (hdef : ∀ i, L ≤ i → i ≤ R → stabs i ≠ none) (hL : 0 ≤ L)
    (hres : stabBinsearch stabs L R type addr = some (left, right)) : L ≤ left ∨ left = right := by
  obtain ⟨st, hloop, hin, -, -⟩ :=
    search_total hdef hL (fun _ => True) trivial fun _ _ _ _ _ _ => trivial
  obtain ⟨left', right', hres', hexit⟩ := stabBinsearch_exit hdef hloop hin
  obtain ⟨rfl, rfl⟩ := Prod.mk.inj (Option.some.inj (hres.symm.trans hres'))
  have hleft := hin.left
  rcases hexit with ⟨-, rfl, -⟩ | ⟨-, -, -, hge | heq⟩
  · exact .inl hleft.1
  · exact .inl (by omega)
  · exact .inr heq

/-- No entry stands before the first one, so a search there faults. -/
theorem search_before_first : stabBinsearch sec.stab (-1) (-1) N_FUN addr = none := by
  simp [stabBinsearch, loop, searchBody, seek, seekBody, DebugSections.stab]

theorem DebugSections.FindsFunction.bounds (h : sec.FindsFunction addr lfun rfun) :
    ∃ lfile rfile, stabBinsearch sec.stab 0 (sec.stabs.length - 1) N_SO addr = some (lfile, rfile) ∧
      lfile ≠ 0 ∧ stabBinsearch sec.stab lfile rfile N_FUN addr = some (lfun, rfun) ∧ 0 ≤ lfile ∧
      lfile ≤ lfun + 1 ∧ rfun < sec.stabs.length := by
  obtain ⟨lfile, rfile, hfile, hne, hfun⟩ := h.search
  have hdef : ∀ i, 0 ≤ i → i ≤ (sec.stabs.length : Int) - 1 → sec.stab i ≠ none := fun _ hi hir =>
    stab_defined hi hir
  obtain ⟨left, right, hres, hleft, -, hright, hright'⟩ :
      ∃ l r, stabBinsearch sec.stab 0 (sec.stabs.length - 1) N_SO addr = some (l, r) ∧ _ :=
    stabBinsearch_inside hdef le_rfl
  obtain ⟨rfl, rfl⟩ := Prod.mk.inj (Option.some.inj (hfile.symm.trans hres))
  have hfirst : 0 ≤ lfile := by
    rcases stabBinsearch_left hdef le_rfl hfile with hge | heq
    · exact hge
    · by_contra hneg
      obtain rfl : lfile = -1 := by omega
      rw [← heq, search_before_first] at hfun
      cases hfun
  have hdef' : ∀ i, lfile ≤ i → i ≤ rfile → sec.stab i ≠ none := fun _ hi hir =>
    stab_defined (by omega) (by omega)
  obtain ⟨left, right, hres', hleft', -, -, hrfun⟩ :
      ∃ l r, stabBinsearch sec.stab lfile rfile N_FUN addr = some (l, r) ∧ _ :=
    stabBinsearch_inside hdef' hfirst
  obtain ⟨rfl, rfl⟩ := Prod.mk.inj (Option.some.inj (hfun.symm.trans hres'))
  have hfunction := has_bounds h.function
  exact ⟨lfile, rfile, hfile, hne, hfun, hfirst, by omega, by omega⟩

/-- In the tables that a linker makes a function is found for every address inside one. -/
theorem DebugSections.Interior.findsFunction (h : sec.Interior addr) :
    ∃ lfun rfun, sec.FindsFunction addr lfun rfun := by
  obtain ⟨lfile, rfile, hfile, hne, h0, hlr, hlen, hhas, hlast, hstretch⟩ := h.file_search
  obtain ⟨lfun, rfun, hfun, -, hfr, -, hfunction, -⟩ :=
    h.function_search h0 hlr hlen hhas hlast hstretch
  obtain ⟨s, hs, his, -⟩ := hfunction
  exact ⟨lfun, rfun, h.kernel, h.strings, ⟨lfile, rfile, hfile, hne, hfun⟩, hfr, s, hs, his⟩

/-- Once a function is found the value returned is 0 and the line is 0. -/
theorem debuginfoEip_region (h : sec.FindsFunction addr lfun rfun) :
    ∃ info, debuginfoEip sec addr = some (0, info) ∧ info.eipLine = 0 ∧
      countNarg sec lfun rfun 0 = some info.eipFnNarg := by
  obtain ⟨lfile, rfile, hfile, hne, hfun, hfirst, hlfile, hrfun⟩ := h.bounds
  obtain ⟨s, hs, -⟩ := h.function
  have hregion := h.region
  have hkernel : ¬ addr < ULIM := BitVec.not_lt.mpr h.kernel
  obtain ⟨file, hfound⟩ := findFile_defined hfirst hlfile (by omega : lfun < sec.stabs.length)
    ⟨.unknown, 0, sec.str s .unknown, (sec.beforeColon (sec.str s .unknown)).length, s.nValue, 0⟩
  have hzero : 0 ≤ lfun := (stab_bounds hs).1
  obtain ⟨narg, hnarg⟩ := countNarg_defined hzero hrfun 0
  refine ⟨⟨file, 0, sec.str s .unknown, (sec.beforeColon (sec.str s .unknown)).length, s.nValue, narg⟩,
    ?_, rfl, hnarg⟩
  rw [debuginfoEip]
  dsimp only
  rw [if_neg hkernel, if_neg (not_not.mpr h.strings), hfile, Option.bind_some, if_neg hne, hfun,
    Option.bind_some, findFunction, if_pos hregion, hs, Option.map_some, Option.bind_some,
    findOffset_eq (zero_mem_chars h.strings s), Option.bind_some, hfound, Option.bind_some, hnarg,
    Option.map_some]

theorem DebugSections.FindsFunction.returned (h : sec.FindsFunction addr lfun rfun) {ret : Int}
    {info : Eipdebuginfo} (hret : debuginfoEip sec addr = some (ret, info)) :
    ret = 0 ∧ info.eipLine = 0 ∧ countNarg sec lfun rfun 0 = some info.eipFnNarg := by
  obtain ⟨info', hret', hregion⟩ := debuginfoEip_region h
  obtain ⟨rfl, rfl⟩ := Prod.mk.inj (Option.some.inj (hret.symm.trans hret'))
  exact ⟨rfl, hregion⟩

theorem nargBody_params {i : Int} {n fuel : Nat} (h0 : 0 ≤ i) (hlen : rfun < sec.stabs.length)
    (hn : i + n = rfun) (hfuel : n < fuel) (narg : Int) :
    loop (nargBody sec.stab rfun) fuel (i, narg) = some (narg + sec.params i n) := by
  obtain ⟨fuel, rfl⟩ : ∃ k, fuel = k + 1 := ⟨fuel - 1, by omega⟩
  induction n generalizing i narg fuel with
  | zero =>
    have hleave : nargBody sec.stab rfun (i, narg) = some (.leave narg) := if_neg (by dsimp only; omega)
    rw [loop_leave fuel hleave, DebugSections.params]
    simp
  | succ n ih =>
    have hlt : i < rfun := by omega
    obtain ⟨s, hs⟩ := Option.ne_none_iff_exists'.mp (stab_defined h0 (by omega) : sec.stab i ≠ none)
    by_cases hp : s.Is N_PSYM
    · have hhas : sec.Has (·.Is N_PSYM) i := ⟨s, hs, hp⟩
      have hagain : nargBody sec.stab rfun (i, narg) = some (.again (i + 1, narg + 1)) := by
        simp [nargBody, hlt, hs, hp]
      obtain ⟨fuel, rfl⟩ : ∃ k, fuel = k + 1 := ⟨fuel - 1, by omega⟩
      rw [loop_again _ hagain, ih (by omega) (by omega) _ fuel (by omega), DebugSections.params,
        if_pos hhas]
      simp only [Nat.cast_add, Nat.cast_one, Option.some.injEq]
      omega
    · have hhas : ¬ sec.Has (·.Is N_PSYM) i := by
        rintro ⟨s', hs', hp'⟩
        rw [hs] at hs'
        exact hp (Option.some.inj hs' ▸ hp')
      have hleave : nargBody sec.stab rfun (i, narg) = some (.leave narg) := by
        simp [nargBody, hlt, hs, hp]
      rw [loop_leave fuel hleave, DebugSections.params, if_neg hhas]
      simp

theorem params_of_has {i : Int} (h : sec.Has (·.Is N_PSYM) i) (n : Nat) :
    sec.params i (n + 1) = sec.params (i + 1) n + 1 :=
  if_pos h

theorem params_of_not_has {i : Int} (h : ¬ sec.Has (·.Is N_PSYM) i) (n : Nat) : sec.params i n = 0 := by
  cases n with
  | zero => rfl
  | succ n => exact if_neg h

/-- One entry more adds to the count when it is a parameter and all before it are. -/
theorem params_succ_eq_iff (i : Int) (n : Nat) :
    sec.params i (n + 1) = sec.params i n ↔ ∃ j, i ≤ j ∧ j ≤ i + n ∧ ¬ sec.Has (·.Is N_PSYM) j := by
  induction n generalizing i with
  | zero =>
    by_cases hi : sec.Has (·.Is N_PSYM) i
    · rw [params_of_has hi]
      refine iff_of_false (Nat.succ_ne_zero _) ?_
      rintro ⟨j, hij, hji, hj⟩
      obtain rfl : j = i := by omega
      exact hj hi
    · rw [params_of_not_has hi, params_of_not_has hi]
      exact iff_of_true rfl ⟨i, le_rfl, by omega, hi⟩
  | succ n ih =>
    by_cases hi : sec.Has (·.Is N_PSYM) i
    · rw [params_of_has hi, params_of_has hi, Nat.add_right_cancel_iff, ih]
      constructor
      · rintro ⟨j, hij, hji, hj⟩
        exact ⟨j, by omega, by omega, hj⟩
      · rintro ⟨j, hij, hji, hj⟩
        have hne : j ≠ i := fun heq => hj (heq ▸ hi)
        exact ⟨j, by omega, by omega, hj⟩
    · rw [params_of_not_has hi, params_of_not_has hi]
      exact iff_of_true rfl ⟨i, le_rfl, by omega, hi⟩

theorem countNarg_params (hlfun : 0 ≤ lfun) {n : Nat} (hn : lfun + 1 + n = rfun)
    (hlen : rfun < sec.stabs.length) :
    countNarg sec lfun rfun 0 = some (sec.params (lfun + 1) n : Int) := by
  rw [countNarg, if_pos (by omega), nargBody_params (by omega) hlen hn (by omega), Int.zero_add]

end Region

/-- A file `a` of two functions: `f` has a parameter `x` and two lines, `g` a
parameter and no line. -/
def twoFunctions : DebugSections where
  stabs := [⟨0, 0, 0, 8, 0⟩, ⟨1, 0x64, 0, 0, 0xF0100000⟩, ⟨3, 0x24, 0, 0, 0xF0100000⟩,
    ⟨11, 0xA0, 0, 0, 8⟩, ⟨0, 0x44, 0, 10, 0⟩, ⟨0, 0x44, 0, 12, 0x10⟩, ⟨7, 0x24, 0, 0, 0xF0100040⟩,
    ⟨11, 0xA0, 0, 0, 8⟩, ⟨0, 0x64, 0, 0, 0xF0100080⟩]
  stabstr := [0, chr 'a', 0, chr 'f', chr ':', chr 'F', 0, chr 'g', chr ':', chr 'F', 0,
    chr 'x', chr ':', chr 'p', 0]

theorem twoFunctions_f : twoFunctions.FindsFunction 0xF0100014 2 5 where
  kernel := by decide
  strings := by decide
  search := ⟨1, 7, by decide +kernel, by decide, by decide +kernel⟩
  region := by decide
  function := by decide

theorem twoFunctions_g : twoFunctions.FindsFunction 0xF0100050 6 7 where
  kernel := by decide
  strings := by decide
  search := ⟨1, 7, by decide +kernel, by decide, by decide +kernel⟩
  region := by decide
  function := by decide

/-- `eip_fn_narg` is the number of parameters that directly follow the function in
its region, the last entry of the region included. -/
def DebugSections.CountsParams (sec : DebugSections) (addr : Word) (lfun rfun : Int) : Prop :=
  ∃ info, debuginfoEip sec addr = some (0, info) ∧
    info.eipFnNarg = sec.params (lfun + 1) (rfun - lfun).toNat

/-- The loop stops before the last entry of the region, which goes uncounted when
it is a parameter like all before it. -/
theorem countsParams_iff (sec : DebugSections) (addr : Word) (lfun rfun : Int)
    (h : sec.FindsFunction addr lfun rfun) :
    sec.CountsParams addr lfun rfun ↔
      ¬ (lfun < rfun ∧ ∀ i, lfun < i → i ≤ rfun → sec.Has (·.Is N_PSYM) i) := by
  obtain ⟨info, hret, -, hnarg⟩ := debuginfoEip_region h
  obtain ⟨-, -, -, -, -, -, -, hlen⟩ := h.bounds
  have hlfun := (has_bounds h.function).1
  have hregion := h.region
  have hcounts : sec.CountsParams addr lfun rfun ↔
      info.eipFnNarg = sec.params (lfun + 1) (rfun - lfun).toNat := by
    refine ⟨fun ⟨info', hret', heq⟩ => ?_, fun heq => ⟨info, hret, heq⟩⟩
    obtain ⟨-, -, hnarg'⟩ := h.returned hret'
    exact (Option.some.inj (hnarg.symm.trans hnarg')).trans heq
  rw [hcounts]
  by_cases hlt : lfun < rfun
  · obtain ⟨n, hn⟩ : ∃ n : Nat, lfun + 1 + n = rfun := ⟨(rfun - lfun - 1).toNat, by omega⟩
    have hall : (rfun - lfun).toNat = n + 1 := by omega
    have hcode : (sec.params (lfun + 1) n : Int) = info.eipFnNarg :=
      Option.some.inj ((countNarg_params hlfun hn hlen).symm.trans hnarg)
    rw [← hcode, hall, Nat.cast_inj, eq_comm, params_succ_eq_iff]
    constructor
    · rintro ⟨j, hj, hjr, hnot⟩ hrun
      exact hnot (hrun.2 j (by omega) (by omega))
    · intro hrun
      by_contra hnone
      push Not at hnone
      exact hrun ⟨hlt, fun i hi hir => hnone i (by omega) (by omega)⟩
  · have hzero : (rfun - lfun).toNat = 0 := by omega
    rw [countNarg, if_neg hlt] at hnarg
    rw [hzero, ← Option.some.inj hnarg]
    exact iff_of_true rfl fun hh => hlt hh.1

theorem countsParams_iff_f : twoFunctions.CountsParams 0xF0100014 2 5 ↔
    ¬ ((2 : Int) < 5 ∧ ∀ i, 2 < i → i ≤ 5 → twoFunctions.Has (·.Is N_PSYM) i) :=
  countsParams_iff twoFunctions 0xF0100014 2 5 twoFunctions_f

/-- The region of `g` ends with its parameter. -/
theorem last_param_uncounted :
    ¬ ∀ (sec : DebugSections) (addr : Word) (lfun rfun : Int),
      sec.FindsFunction addr lfun rfun → sec.CountsParams addr lfun rfun := by
  intro h
  obtain ⟨info, hret, hcount⟩ := h twoFunctions 0xF0100050 6 7 twoFunctions_g
  obtain ⟨-, -, hnarg⟩ := twoFunctions_g.returned hret
  rw [hcount] at hnarg
  revert hnarg
  decide

/-- The line of the last `N_SLINE` of the region at or below the address, which is
relative to the function. -/
def DebugSections.lineDesc (sec : DebugSections) (addr : Word) (lfun rfun : Int) : Option (BitVec 16) :=
  (sec.stab lfun).bind fun f =>
  (lastOf (fun i => lfun ≤ i ∧ sec.Has (fun s => s.Is N_SLINE ∧ s.nValue ≤ addr - f.nValue) i) 0
    (rfun + 1).toNat).bind fun i =>
  (sec.stab i).map (·.nDesc)

def DebugSections.FindsLine (sec : DebugSections) (addr : Word) (lfun rfun : Int) : Prop :=
  ∃ ret info, debuginfoEip sec addr = some (ret, info) ∧
    match sec.lineDesc addr lfun rfun with
    | some desc => ret = 0 ∧ info.eipLine = desc.toNat
    | none => ret < 0

/-- There is no search for the line, so it is right when line 0 is. -/
theorem findsLine_iff (sec : DebugSections) (addr : Word) (lfun rfun : Int)
    (h : sec.FindsFunction addr lfun rfun) :
    sec.FindsLine addr lfun rfun ↔ sec.lineDesc addr lfun rfun = some 0 := by
  rw [DebugSections.FindsLine]
  constructor
  · rintro ⟨ret, info, hret, hfound⟩
    obtain ⟨rfl, hline, -⟩ := h.returned hret
    cases hdesc : sec.lineDesc addr lfun rfun with
    | none =>
      rw [hdesc] at hfound
      exact absurd hfound (lt_irrefl 0)
    | some desc =>
      rw [hdesc] at hfound
      have hzero : desc.toNat = (0 : BitVec 16).toNat := by
        have hnat : (desc.toNat : Int) = 0 := hfound.2.symm.trans hline
        exact_mod_cast hnat
      rw [BitVec.toNat_inj.mp hzero]
  · intro hdesc
    obtain ⟨info, hret, hline, -⟩ := debuginfoEip_region h
    refine ⟨0, info, hret, ?_⟩
    rw [hdesc]
    exact ⟨rfl, hline⟩

theorem findsLine_iff_f :
    twoFunctions.FindsLine 0xF0100014 2 5 ↔ twoFunctions.lineDesc 0xF0100014 2 5 = some 0 :=
  findsLine_iff twoFunctions 0xF0100014 2 5 twoFunctions_f

theorem twoFunctions_lines : Ascending (stabKey twoFunctions.stab N_SLINE) 2 5 := by
  intro i j a b hi hij hj ha hb
  have hall : ∀ i, 2 ≤ i → i ≤ 5 → ∀ j, 2 ≤ j → j ≤ 5 → i < j →
      ∀ a ∈ stabKey twoFunctions.stab N_SLINE i, ∀ b ∈ stabKey twoFunctions.stab N_SLINE j, a ≤ b := by
    decide
  exact hall i hi (by omega) j (by omega) hj hij a ha b hb

/-- The address is in line 12. -/
theorem line_unfound :
    ¬ ∀ (sec : DebugSections) (addr : Word) (lfun rfun : Int), sec.FindsFunction addr lfun rfun →
      Ascending (stabKey sec.stab N_SLINE) lfun rfun → sec.FindsLine addr lfun rfun := by
  intro h
  obtain ⟨ret, info, hret, hfound⟩ := h twoFunctions 0xF0100014 2 5 twoFunctions_f twoFunctions_lines
  obtain ⟨-, hline, -⟩ := twoFunctions_f.returned hret
  have hdesc : twoFunctions.lineDesc 0xF0100014 2 5 = some 12 := by decide
  rw [hdesc, hline] at hfound
  exact absurd hfound.2 (by decide)

end Jos
