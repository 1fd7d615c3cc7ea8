import Jos.Kdebug

/-! `debuginfo_eip` reads nothing outside the tables of stabs and strings,
whatever they hold. -/

namespace Jos

/-- From the pointer on there are `n` bytes of the string table, or of the literal. -/
def DebugSections.Extent (sec : DebugSections) (p : CharPtr) (n : Nat) : Prop :=
  match p with
  | .unknown => n ≤ (cstr "<unknown>").bytes.length
  | .stabstr off => off + n ≤ sec.stabstr.length

/-- The function's name is `eip_fn_namelen` bytes, none of them a colon or a NUL. -/
def DebugSections.NameInside (sec : DebugSections) (info : Eipdebuginfo) : Prop :=
  ∃ n : Nat, info.eipFnNamelen = n ∧ sec.Extent info.eipFnName n ∧
    ∀ b ∈ (sec.chars info.eipFnName).take n, b ≠ chr ':' ∧ b ≠ 0

section Bounds

variable {sec : DebugSections} {addr : Word} {lfile rfile lfun rfun lline : Int} {info : Eipdebuginfo}

theorem stabKey_of_not_has {type i : Int} (h : ¬ sec.Has (·.Is type) i) :
    stabKey sec.stab type i = none := by
  by_contra hne
  obtain ⟨v, hv⟩ := Option.ne_none_iff_exists'.mp hne
  exact h (has_type_iff.mpr ⟨v, hv⟩)

theorem beforeColon_take {p : CharPtr} : ∀ b ∈ (sec.chars p).take (sec.beforeColon p).length,
    b ≠ chr ':' ∧ b ≠ 0 := by
  intro b hb
  have hprefix : sec.beforeColon p <+: sec.chars p := List.takeWhile_prefix _
  rw [← List.prefix_iff_eq_take.mp hprefix] at hb
  have hname : b ≠ 0 ∧ b ≠ chr ':' := by simpa using List.mem_takeWhile_imp hb
  exact hname.symm

theorem beforeColon_lt {p : CharPtr} (h : 0 ∈ sec.chars p) :
    (sec.beforeColon p).length < (sec.chars p).length := by
  have hprefix : sec.beforeColon p <+: sec.chars p := List.takeWhile_prefix _
  refine lt_of_le_of_ne hprefix.length_le fun heq => ?_
  have hall : ∀ b ∈ (sec.chars p).take (sec.beforeColon p).length, b ≠ chr ':' ∧ b ≠ 0 :=
    beforeColon_take
  rw [heq, List.take_length] at hall
  exact (hall 0 h).2 rfl

theorem extent_beforeColon {p : CharPtr} (h : 0 ∈ sec.chars p) :
    sec.Extent p (sec.beforeColon p).length := by
  have hlt := beforeColon_lt h
  cases p with
  | unknown =>
    rw [DebugSections.chars, List.length_append, List.length_singleton] at hlt
    exact Nat.le_of_lt_succ hlt
  | stabstr off =>
    rw [DebugSections.chars, List.length_drop] at hlt
    rw [DebugSections.Extent]
    omega

theorem findFile_defined (h0 : 0 ≤ lfile) (hle : lfile ≤ lline + 1) (hlen : lline < sec.stabs.length)
    (info : Eipdebuginfo) :
    ∃ file, findFile sec lfile lline info = some { info with eipFile := file } := by
  have hread : ∀ i, lfile ≤ i → i ≤ lline → sec.stab i ≠ none := fun _ hi hil =>
    stab_defined (by omega) (by omega)
  obtain ⟨k, hseek, hge, hkl, hfound, -⟩ := seek_spec Stab.NamesFile hle hread
  rw [findFile, hseek, Option.bind_some]
  by_cases hk : lfile ≤ k
  · obtain ⟨s, hs, -⟩ := hfound hk
    exact ⟨sec.str s info.eipFile, by rw [if_pos hk, hs, Option.map_some]⟩
  · exact ⟨info.eipFile, if_neg hk⟩

theorem findFunction_defined (addr : Word) (lfile rfun : Int) (h0 : 0 ≤ lfun)
    (hlen : lfun < sec.stabs.length) (hstrings : sec.stabstr.getLast? = some 0)
    (hname : info.eipFnName = .unknown) :
    ∃ info' lline, findFunction sec addr lfile lfun rfun info = some (info', lline) ∧
      0 ∈ sec.chars info'.eipFnName ∧ info'.eipFnNarg = info.eipFnNarg ∧
      (lline = lfun ∨ lline = lfile) := by
  rw [findFunction]
  by_cases hfun : lfun ≤ rfun
  · obtain ⟨s, hs⟩ := Option.ne_none_iff_exists'.mp (stab_defined h0 (by omega) : sec.stab lfun ≠ none)
    rw [if_pos hfun, hs, Option.map_some, hname]
    exact ⟨_, _, rfl, zero_mem_chars hstrings s, rfl, .inl rfl⟩
  · rw [if_neg hfun]
    refine ⟨_, _, rfl, ?_, rfl, .inr rfl⟩
    dsimp only
    rw [hname, DebugSections.chars]
    exact List.mem_append_right _ List.mem_cons_self

theorem file_search_inside (addr : Word) (hheader : ¬ sec.Has (·.Is N_SO) 0) :
    ∃ lfile rfile, stabBinsearch sec.stab 0 (sec.stabs.length - 1) N_SO addr = some (lfile, rfile) ∧
      (lfile = 0 ∨ (0 < lfile ∧ lfile ≤ rfile ∧ rfile ≤ sec.stabs.length - 1)) :=
  stabBinsearch_first (fun _ hi hir => stab_defined hi hir) le_rfl (stabKey_of_not_has hheader)

theorem function_search_inside (addr : Word) (hlow : 0 < lfile) (hle : lfile ≤ rfile)
    (hlen : rfile < sec.stabs.length) :
    ∃ lfun rfun, stabBinsearch sec.stab lfile rfile N_FUN addr = some (lfun, rfun) ∧
      lfile - 1 ≤ lfun ∧ lfun < sec.stabs.length ∧ rfun < sec.stabs.length := by
  obtain ⟨lfun, rfun, hsearch, hlfun, hlfun', hrfun, hrfun'⟩ :
      ∃ l r, stabBinsearch sec.stab lfile rfile N_FUN addr = some (l, r) ∧ _ :=
    stabBinsearch_inside (fun _ hi hir => stab_defined (by omega) (by omega)) hlow.le
  exact ⟨lfun, rfun, hsearch, hlfun, by omega, by omega⟩

/-- The first entry is the linker's header, not a file. Then all that
`debuginfo_eip` reads is there, and the name it finds is the name of a function
or the literal. -/
theorem debuginfoEip_inside (sec : DebugSections) (addr : Word) (hkernel : ULIM ≤ addr)
    (hheader : ¬ sec.Has (·.Is N_SO) 0) :
    ∃ ret info, debuginfoEip sec addr = some (ret, info) ∧ (ret = 0 → sec.NameInside info) := by
  have hkernel : ¬ addr < ULIM := BitVec.not_lt.mpr hkernel
  rw [debuginfoEip]
  dsimp only
  rw [if_neg hkernel]
  by_cases hstrings : sec.stabstr.getLast? = some 0
  · obtain ⟨lfile, rfile, hfile, hfirst⟩ := file_search_inside addr hheader
    rw [if_neg (not_not.mpr hstrings), hfile, Option.bind_some]
    dsimp only
    by_cases hzero : lfile = 0
    · rw [if_pos hzero]
      exact ⟨_, _, rfl, fun hret => absurd hret (by decide)⟩
    · obtain ⟨hlow, hle, hlen⟩ := hfirst.resolve_left hzero
      obtain ⟨lfun, rfun, hfun, hlfun, hlfun', hrfun⟩ :=
        function_search_inside addr hlow hle (by omega : rfile < sec.stabs.length)
      obtain ⟨info, lline, hfound, hchars, hnarg, hline⟩ :=
        findFunction_defined addr lfile rfun (by omega : 0 ≤ lfun) hlfun' hstrings
          (rfl : (⟨.unknown, 0, .unknown, 9, addr, 0⟩ : Eipdebuginfo).eipFnName = .unknown)
      obtain ⟨file, hfile⟩ := findFile_defined hlow.le (by omega : lfile ≤ lline + 1)
        (by omega : lline < sec.stabs.length)
        { info with eipFnNamelen := ((sec.beforeColon info.eipFnName).length : Int) }
      obtain ⟨narg, hnarg⟩ := countNarg_defined (by omega : 0 ≤ lfun) hrfun info.eipFnNarg
      rw [if_neg hzero, hfun, Option.bind_some]
      dsimp only
      rw [hfound, Option.bind_some]
      dsimp only
      rw [findOffset_eq hchars, Option.bind_some, hfile, Option.bind_some]
      dsimp only
      rw [hnarg, Option.map_some]
      exact ⟨_, _, rfl, fun _ => ⟨_, rfl, extent_beforeColon hchars, beforeColon_take⟩⟩
  · rw [if_pos hstrings]
    exact ⟨_, _, rfl, fun hret => absurd hret (by decide)⟩

end Bounds

/-- The only function of the file starts after the address, and the second search
answers with the file. -/
def lateFunction : DebugSections where
  stabs := [⟨0, 0, 0, 2, 0⟩, ⟨1, 0x64, 0, 0, 0xF0100000⟩, ⟨3, 0x24, 0, 0, 0xF0100080⟩]
  stabstr := [0, chr 'a', 0, chr 'f', chr ':', chr 'F', 0]

theorem debuginfoEip_inside_late :
    ∃ ret info, debuginfoEip lateFunction 0xF0100010 = some (ret, info) ∧
      (ret = 0 → lateFunction.NameInside info) :=
  debuginfoEip_inside lateFunction 0xF0100010 (by decide) (by decide)

end Jos
