import Jos.FormatCount
import Jos.FormatError

/-! A format whose arguments are there is printed to its end, and an escape that
is not one is printed as text. -/

namespace Jos

/-- `%o` takes none. -/
def Conversion.taken (lflag : Int) (k : Conversion) : Nat :=
  if k = .octal then 0 else k.words lflag

def stars (settings : List Setting) : Nat :=
  (settings.map Setting.words).sum

namespace Piece

def taken : Piece → Nat
  | .literal _ => 0
  | .escape settings k => stars settings + k.taken (settings.foldl Setting.longs 0)

/-- The pointer for `%s` is null, or to a string that can be read. -/
def StringReadable (rom : Rom) (ap : List Word) : Piece → Prop
  | .literal _ => True
  | .escape settings k => k = .string →
    ∀ p ap' esc, settings.foldlM Setting.apply (ap, Escape.start) = some (p :: ap', esc) → p ≠ 0 →
      ReadableTo esc.precision (rom.bytes p)

end Piece

def takenBy (ps : List Piece) : Nat :=
  (ps.map Piece.taken).sum

/-- The arguments are there, and the strings among them can be read. -/
def Supplied (rom : Rom) : List Piece → List Word → Prop
  | [], _ => True
  | p :: ps, ap => p.taken ≤ ap.length ∧ p.StringReadable rom ap ∧ Supplied rom ps (ap.drop p.taken)

theorem supplied_append {rom : Rom} {ps qs : List Piece} {ap : List Word} :
    Supplied rom (ps ++ qs) ap ↔ Supplied rom ps ap ∧ Supplied rom qs (ap.drop (takenBy ps)) := by
  induction ps generalizing ap with
  | nil => simp [Supplied, takenBy]
  | cons p ps ih => simp [Supplied, takenBy, ih, and_assoc]

theorem Setting.apply_supplied {f : Setting} {ap : List Word} (h : f.words ≤ ap.length) (esc : Escape) :
    ∃ esc', f.apply (ap, esc) = some (ap.drop f.words, esc') := by
  cases f with
  | number n => exact ⟨_, rfl⟩
  | flag f =>
    cases f with
    | star =>
      obtain ⟨w, ap, rfl⟩ := List.exists_cons_of_length_pos h
      exact ⟨_, rfl⟩
    | right | zero | dot | alt | long => exact ⟨_, rfl⟩

theorem foldlM_supplied {settings : List Setting} {ap : List Word} (h : stars settings ≤ ap.length)
    (esc : Escape) :
    ∃ esc', settings.foldlM Setting.apply (ap, esc) = some (ap.drop (stars settings), esc') := by
  induction settings generalizing ap esc with
  | nil => exact ⟨esc, rfl⟩
  | cons f settings ih =>
    have hsum : stars (f :: settings) = f.words + stars settings := List.sum_cons
    have hwords : f.words ≤ ap.length := by omega
    obtain ⟨esc₁, hf⟩ := f.apply_supplied hwords esc
    have hrest : stars settings ≤ (ap.drop f.words).length := by
      rw [List.length_drop]
      omega
    obtain ⟨esc₂, hsettings⟩ := ih hrest esc₁
    refine ⟨esc₂, ?_⟩
    rw [List.foldlM_cons, hf, Option.bind_eq_bind, Option.bind_some, hsettings, List.drop_drop, hsum]

section Convert

variable {σ : Type*} (putch : Word → σ → σ) (rom : Rom)

theorem printNumber_some {base : Nat} (hb : 2 ≤ base) (hb' : base ≤ 16) (num : BitVec 64) (esc : Escape)
    (s : σ) : ∃ s', printNumber putch num base esc s = some s' := by
  have hnum : num.toNat < base ^ (63 + 1) := num.isLt.trans_le (Nat.pow_le_pow_left hb 64)
  exact ⟨_, printnum_eq putch hb hb' esc.padc hnum esc.width s⟩

theorem printDecimal_some (num : BitVec 64) (esc : Escape) (s : σ) :
    ∃ s', printDecimal putch num esc s = some s' := by
  unfold printDecimal
  split_ifs
  · exact printNumber_some putch (by decide) (by decide) _ _ _
  · exact printNumber_some putch (by decide) (by decide) _ _ _

theorem strnlen_some {p : List Byte} {size : Nat} (hp : 0 ∈ p ∨ size ≤ p.length) :
    ∃ n, strnlen p size = some n := by
  induction p generalizing size with
  | nil =>
    obtain rfl : size = 0 := by simpa using hp
    exact ⟨0, by rw [strnlen]⟩
  | cons c p ih =>
    cases size with
    | zero => exact ⟨0, by rw [strnlen]⟩
    | succ size =>
      rw [strnlen]
      split_ifs with hc
      · exact ⟨0, rfl⟩
      · have hrest : 0 ∈ p ∨ size ≤ p.length :=
          hp.imp (fun h => (List.mem_cons.mp h).resolve_left (Ne.symm hc)) Nat.le_of_succ_le_succ
        obtain ⟨n, hn⟩ := ih hrest
        exact ⟨n + 1, by rw [hn]; rfl⟩

theorem printString_some {p : List Byte} {esc : Escape} (hp : ReadableTo esc.precision p) (s : σ) :
    ∃ s', printString putch esc p s = some s' := by
  obtain ⟨⟨width, s₁⟩, hpad⟩ : ∃ r, padString putch esc p s = some r := by
    have hsize : 0 ∈ p ∨ (esc.precision % 2 ^ 32).toNat ≤ p.length := by
      refine hp.imp id fun h => ?_
      omega
    obtain ⟨n, hn⟩ := strnlen_some hsize
    unfold padString
    split_ifs
    · exact ⟨_, by rw [hn]; rfl⟩
    · exact ⟨_, rfl⟩
  obtain ⟨r, hr⟩ := printChars_readable putch esc.altflag hp width s₁
  refine ⟨(putch 0x20)^[r.1.toNat] r.2, ?_⟩
  rw [printString, hpad, Option.bind_some]
  exact congrArg (Option.map _) hr

theorem string_readable {precision : Int} {p : Word} (hp : p ≠ 0 → ReadableTo precision (rom.bytes p)) :
    ReadableTo precision (rom.string p) := by
  unfold Rom.string
  split_ifs with hnull
  · exact .inl (by decide)
  · exact hp hnull

theorem vaInt_supplied {ap : List Word} (h : 1 ≤ ap.length) : ∃ w, vaInt ap = some (w, ap.drop 1) := by
  obtain ⟨w, ap, rfl⟩ := List.exists_cons_of_length_pos h
  exact ⟨w, rfl⟩

theorem vaLongLong_supplied {ap : List Word} (h : 2 ≤ ap.length) :
    ∃ num, vaLongLong ap = some (num, ap.drop 2) := by
  obtain ⟨lo, ap, rfl⟩ := List.exists_cons_of_length_pos (Nat.zero_lt_of_lt h)
  obtain ⟨hi, ap, rfl⟩ := List.exists_cons_of_length_pos (Nat.le_of_succ_le_succ h)
  exact ⟨_, rfl⟩

theorem getuint_supplied {lflag : Int} {ap : List Word} (h : (if lflag ≥ 2 then 2 else 1) ≤ ap.length) :
    ∃ num, getuint ap lflag = some (num, ap.drop (if lflag ≥ 2 then 2 else 1)) := by
  unfold getuint
  split_ifs at h ⊢
  · exact vaLongLong_supplied h
  · obtain ⟨w, hw⟩ := vaInt_supplied h
    exact ⟨_, congrArg (Option.map _) hw⟩

theorem getint_supplied {lflag : Int} {ap : List Word} (h : (if lflag ≥ 2 then 2 else 1) ≤ ap.length) :
    ∃ num, getint ap lflag = some (num, ap.drop (if lflag ≥ 2 then 2 else 1)) := by
  unfold getint
  split_ifs at h ⊢
  · exact vaLongLong_supplied h
  · obtain ⟨w, hw⟩ := vaInt_supplied h
    exact ⟨_, congrArg (Option.map _) hw⟩

variable {rom} {printfmt : CString → List Word → σ → Option σ}
  (herror : ∀ w s, ∃ s', printError rom printfmt w s = some s')

include herror

theorem convert_supplied {k : Conversion} {esc : Escape} {ap : List Word}
    (htaken : k.taken esc.lflag ≤ ap.length)
    (hstring : k = .string → ∀ p ap', ap = p :: ap' → p ≠ 0 →
      ReadableTo esc.precision (rom.bytes p)) (s : σ) :
    ∃ s', convert putch rom printfmt k esc ap s = some (ap.drop (k.taken esc.lflag), s') := by
  cases k with
  | octal | percent | unrecognized => exact ⟨_, rfl⟩
  | char =>
    obtain ⟨w, ap, rfl⟩ := List.exists_cons_of_length_pos htaken
    exact ⟨_, rfl⟩
  | error =>
    obtain ⟨w, ap, rfl⟩ := List.exists_cons_of_length_pos htaken
    obtain ⟨s', hs⟩ := herror w s
    exact ⟨s', congrArg (Option.map (ap, ·)) hs⟩
  | string =>
    obtain ⟨p, ap, rfl⟩ := List.exists_cons_of_length_pos htaken
    obtain ⟨s', hs⟩ := printString_some putch (string_readable rom (hstring rfl p ap rfl)) s
    exact ⟨s', congrArg (Option.map (ap, ·)) hs⟩
  | pointer =>
    obtain ⟨p, ap, rfl⟩ := List.exists_cons_of_length_pos htaken
    obtain ⟨s', hs⟩ := printNumber_some putch (by decide : 2 ≤ 16) le_rfl (p.setWidth 64) esc
      (putch ((chr 'x').signExtend 32) (putch ((chr '0').signExtend 32) s))
    exact ⟨s', congrArg (Option.map (ap, ·)) hs⟩
  | decimal =>
    obtain ⟨num, hnum⟩ := getint_supplied htaken
    obtain ⟨s', hs⟩ := printDecimal_some putch num esc s
    refine ⟨s', ?_⟩
    rw [convert, hnum, Option.bind_some]
    exact congrArg (Option.map _) hs
  | unsigned =>
    obtain ⟨num, hnum⟩ := getuint_supplied htaken
    obtain ⟨s', hs⟩ := printNumber_some putch (by decide : 2 ≤ 10) (by decide) num esc s
    refine ⟨s', ?_⟩
    rw [convert, hnum, Option.bind_some]
    exact congrArg (Option.map _) hs
  | hex =>
    obtain ⟨num, hnum⟩ := getuint_supplied htaken
    obtain ⟨s', hs⟩ := printNumber_some putch (by decide : 2 ≤ 16) le_rfl num esc s
    refine ⟨s', ?_⟩
    rw [convert, hnum, Option.bind_some]
    exact congrArg (Option.map _) hs

theorem Piece.run_supplied {p : Piece} {ap : List Word} (htaken : p.taken ≤ ap.length)
    (hstring : p.StringReadable rom ap) (s : σ) :
    ∃ s', p.run putch rom printfmt (ap, s) = some (ap.drop p.taken, s') := by
  cases p with
  | literal ch => exact ⟨_, rfl⟩
  | escape settings k =>
    have hsum : (Piece.escape settings k).taken =
        stars settings + k.taken (settings.foldl Setting.longs 0) := rfl
    have hstars : stars settings ≤ ap.length := by omega
    obtain ⟨esc, hset⟩ := foldlM_supplied hstars .start
    have hl : esc.lflag = settings.foldl Setting.longs 0 := foldlM_lflag hset
    have hk : k.taken esc.lflag ≤ (ap.drop (stars settings)).length := by
      rw [List.length_drop, hl]
      omega
    have hread : k = .string → ∀ p ap', ap.drop (stars settings) = p :: ap' → p ≠ 0 →
        ReadableTo esc.precision (rom.bytes p) := fun hk p ap' hap => hstring hk p ap' esc (hap ▸ hset)
    obtain ⟨s', hs⟩ := convert_supplied putch herror hk hread s
    refine ⟨s', ?_⟩
    rw [Piece.run, hset, Option.bind_some]
    dsimp only
    rw [hs, List.drop_drop, hsum, hl]

theorem runPieces_supplied {ps : List Piece} {ap : List Word} (h : Supplied rom ps ap) (s : σ) :
    ∃ s', runPieces putch rom printfmt ps ap s = some (ap.drop (takenBy ps), s') := by
  induction ps generalizing ap s with
  | nil => exact ⟨s, rfl⟩
  | cons p ps ih =>
    obtain ⟨htaken, hstring, hrest⟩ := h
    obtain ⟨s₁, hp⟩ := Piece.run_supplied putch herror htaken hstring s
    obtain ⟨s₂, hps⟩ := ih hrest s₁
    have hsum : takenBy (p :: ps) = p.taken + takenBy ps := List.sum_cons
    refine ⟨s₂, ?_⟩
    rw [runPieces, List.foldlM_cons, hp, hsum, ← List.drop_drop]
    exact hps

end Convert

theorem printError_some {σ : Type*} (putch : Word → σ → σ) (rom : Rom) (w : Word) (s : σ) :
    ∃ s', printError rom (vprintfmtDepth putch rom 1) w s = some s' := by
  rcases printError_cases rom (vprintfmtDepth putch rom 1) w s with ⟨v, he⟩ | ⟨i, hi, hne, he⟩
  · rw [he, vprintfmtDepth_one putch rom (by simp [parse_errorFormat]), vprintfmt_eq_calls,
      putchCalls_errorFormat]
    exact ⟨_, rfl⟩
  · have hends : 0 ∈ rom.bytes (rom.errorString i) := by
      cases ht : errorText i with
      | none => exact absurd (rom.errorString_none i hi ht) hne
      | some t =>
        obtain ⟨-, hprefix⟩ := rom.errorString_some i hi t ht
        exact hprefix.subset (by simp [CString.object])
    rw [he, vprintfmtDepth_one putch rom (by simp [parse_string])]
    exact vprintfmt_string putch hne hends s

def IsSetting (b : Byte) : Prop :=
  ∀ k, switchCase b ≠ .conversion k

/-- What follows the `%` of a malformed escape, and the rest of the format: settings,
and a character that is no conversion, or the end. -/
def Malformed (text rest : List Byte) : Prop :=
  (∃ settings c, text = settings ++ [c] ∧ (∀ b ∈ settings, IsSetting b) ∧
    switchCase c = .conversion .unrecognized) ∨ (∀ b ∈ text, IsSetting b) ∧ rest = []

theorem takeNumber_settings (text : List Byte) {tail : List Byte} (htail : NoDigit tail)
    (precision : Int) (ch : Byte) :
    ∃ text', text' <:+ text ∧ text'.count (chr '*') = text.count (chr '*') ∧
      (takeNumber precision ch (text ++ tail)).2 = text' ++ tail := by
  induction text generalizing precision ch with
  | nil =>
    refine ⟨[], List.suffix_rfl, rfl, ?_⟩
    cases tail with
    | nil => rfl
    | cons c tail => simp [takeNumber, htail c rfl]
  | cons b text ih =>
    rw [List.cons_append, takeNumber]
    split_ifs with hb
    · exact ⟨b :: text, List.suffix_rfl, rfl, rfl⟩
    · obtain ⟨text', hsuffix, hcount, htake⟩ :=
        ih (wrap32 (precision * 10 + ch.toNat - (chr '0').toNat)) b
      have hstar : b ≠ chr '*' := by
        rintro rfl
        exact hb (.inl (by decide))
      refine ⟨text', hsuffix.trans (List.suffix_cons b text), ?_, htake⟩
      rw [hcount, List.count_cons_of_ne hstar]

theorem switchCase_star {b : Byte} : switchCase b = .flag .star ↔ b = chr '*' := by
  constructor
  · have hall : ∀ n < 256, switchCase (BitVec.ofNat 8 n) = .flag .star → BitVec.ofNat 8 n = chr '*' := by
      decide +kernel
    intro h
    have hb : BitVec.ofNat 8 b.toNat = b := by rw [BitVec.ofNat_toNat, BitVec.setWidth_eq]
    exact hb ▸ hall b.toNat b.isLt (hb.symm ▸ h)
  · rintro rfl
    decide

theorem words_eq_count {b : Byte} {f : Flag} (h : switchCase b = .flag f) :
    (Setting.flag f).words = if b = chr '*' then 1 else 0 := by
  split_ifs with hstar
  · rw [switchCase_star.mpr hstar, SwitchCase.flag.injEq] at h
    rw [← h]
    rfl
  · have hf : f ≠ .star := by
      rintro rfl
      exact hstar (switchCase_star.mp h)
    cases f with
    | star => exact absurd rfl hf
    | right | zero | dot | alt | long => rfl

/-- Settings do not change the conversion that an escape ends with, and take an
argument for each star. -/
structure SettingsOnly (text tail : List Byte) : Prop where
  kind : (parseEscape (text ++ tail)).kind = (parseEscape tail).kind
  stars : stars (parseEscape (text ++ tail)).settings =
    text.count (chr '*') + stars (parseEscape tail).settings

theorem SettingsOnly.flag {text tail : List Byte} (h : SettingsOnly text tail) {b : Byte} {f : Flag}
    (hb : switchCase b = .flag f) : SettingsOnly (b :: text) tail := by
  have hparse : parseEscape (b :: text ++ tail) = (parseEscape (text ++ tail)).set (.flag f) := by
    rw [List.cons_append, parseEscape, hb]
  have hsum : Jos.stars (parseEscape (b :: text ++ tail)).settings =
      (Setting.flag f).words + Jos.stars (parseEscape (text ++ tail)).settings := by
    rw [hparse]
    exact List.sum_cons
  refine ⟨by rw [hparse]; exact h.kind, ?_⟩
  rw [hsum, h.stars, words_eq_count hb, List.count_cons]
  simp only [beq_iff_eq]
  omega

theorem SettingsOnly.number {b : Byte} {text text' tail : List Byte} (h : SettingsOnly text' tail)
    (hb : switchCase b = .width) (htake : (takeNumber 0 b (text ++ tail)).2 = text' ++ tail)
    (hcount : text'.count (chr '*') = text.count (chr '*')) : SettingsOnly (b :: text) tail := by
  have hparse : parseEscape (b :: text ++ tail) =
      (parseEscape (text' ++ tail)).set (.number (takeNumber 0 b (text ++ tail)).1) := by
    rw [List.cons_append, parseEscape, hb]
    dsimp only
    rw [htake]
  have hsum : Jos.stars (parseEscape (b :: text ++ tail)).settings =
      Jos.stars (parseEscape (text' ++ tail)).settings := by
    rw [hparse]
    exact List.sum_cons.trans (Nat.zero_add _)
  have hne : b ≠ chr '*' := by
    rintro rfl
    rw [switchCase_star.mpr rfl] at hb
    simp at hb
  refine ⟨by rw [hparse]; exact h.kind, ?_⟩
  rw [hsum, h.stars, hcount, List.count_cons_of_ne hne]

theorem settingsOnly {text tail : List Byte} (htext : ∀ b ∈ text, IsSetting b) (htail : NoDigit tail) :
    SettingsOnly text tail := by
  -- a number is read with all its digits, so the induction is on the length
  induction hn : text.length using Nat.strong_induction_on generalizing text with
  | _ n ih =>
    cases text with
    | nil => exact ⟨rfl, (Nat.zero_add _).symm⟩
    | cons b text =>
      have hrest : ∀ c ∈ text, IsSetting c := fun c hc => htext c (List.mem_cons_of_mem _ hc)
      rw [List.length_cons] at hn
      cases hb : switchCase b with
      | conversion k => exact absurd hb (htext b (by simp) k)
      | flag f => exact (ih text.length (by omega) hrest rfl).flag hb
      | width =>
        obtain ⟨text', hsuffix, hcount, htake⟩ := takeNumber_settings text htail 0 b
        have hlen := hsuffix.length_le
        have hshort := ih text'.length (by omega) (fun c hc => hrest c (hsuffix.subset hc)) rfl
        exact hshort.number hb htake hcount

theorem Malformed.parse {text rest : List Byte} (h : Malformed text rest) :
    (parseEscape (text ++ rest)).kind = .unrecognized ∧
      stars (parseEscape (text ++ rest)).settings = text.count (chr '*') := by
  rcases h with ⟨settings, c, rfl, hsettings, hc⟩ | ⟨htext, rfl⟩
  · have htail : parseEscape (c :: rest) = ⟨[], .unrecognized, rest⟩ := parseEscape_conversion hc rest
    have hne : c ≠ chr '*' := by
      rintro rfl
      rw [switchCase_star.mpr rfl] at hc
      simp at hc
    obtain ⟨hkind, hstars⟩ := settingsOnly hsettings (noDigit_conversion hc rest)
    rw [htail] at hkind hstars
    rw [List.append_assoc, List.singleton_append, List.count_append, List.count_singleton]
    refine ⟨hkind, ?_⟩
    simpa [hne, stars] using hstars
  · have hnone : NoDigit [] := by simp [NoDigit]
    obtain ⟨hkind, hstars⟩ := settingsOnly htext hnone
    refine ⟨by simpa [parseEscape] using hkind, ?_⟩
    simpa [parseEscape, stars] using hstars

theorem Malformed.ne_percent {text rest : List Byte} (h : Malformed text rest) :
    ∀ b ∈ text, b ≠ chr '%' := by
  have hsetting : ∀ b, IsSetting b → b ≠ chr '%' := by
    rintro b hb rfl
    exact hb .percent switchCase_percent
  rcases h with ⟨settings, c, rfl, hsettings, hc⟩ | ⟨htext, -⟩
  · intro b hb
    rcases List.mem_append.mp hb with hb | hb
    · exact hsetting b (hsettings b hb)
    · rw [List.mem_singleton.mp hb]
      rintro rfl
      rw [switchCase_percent] at hc
      simp at hc
  · exact fun b hb => hsetting b (htext b hb)

theorem parse_malformed {pre text rest : CString} (hpre : pre.EndsOutside)
    (htext : Malformed text.bytes rest.bytes) : ∃ settings, stars settings = text.bytes.count (chr '*') ∧
      parse (pre ++ cstr "%" ++ text ++ rest).bytes = parse pre.bytes ++
        .escape settings .unrecognized :: (text.bytes.map .literal ++ parse rest.bytes) := by
  obtain ⟨hkind, hstars⟩ := htext.parse
  have hbytes : (pre ++ cstr "%" ++ text ++ rest).bytes =
      pre.bytes ++ chr '%' :: (text.bytes ++ rest.bytes) := by
    have hpercent : (cstr "%").bytes = [chr '%'] := by decide
    simp [hpercent]
  refine ⟨_, hstars, ?_⟩
  rw [hbytes, parse_append _ _ hpre]
  congr 1
  rw [parse, if_neg (not_not.mpr rfl), afterEscape, if_pos hkind, hkind, parse_text htext.ne_percent]

section Run

variable {σ : Type*} {putch : Word → σ → σ} {rom : Rom} {printfmt : CString → List Word → σ → Option σ}

theorem runPieces_then {ps : List Piece} {ap ap' : List Word} {s s' : σ}
    (h : runPieces putch rom printfmt ps ap s = some (ap', s')) (qs : List Piece) :
    runPieces putch rom printfmt (ps ++ qs) ap s = runPieces putch rom printfmt qs ap' s' := by
  rw [runPieces, List.foldlM_append]
  exact (congrArg (fun r => r >>= fun st => qs.foldlM (Piece.run putch rom printfmt) st) h).trans rfl

end Run

namespace CString

def Supplied (fmt : CString) (rom : Rom) (ap : List Word) : Prop :=
  Jos.Supplied rom (parse fmt.bytes) ap

def taken (fmt : CString) : Nat :=
  takenBy (parse fmt.bytes)

end CString

theorem putchCalls_supplied (rom : Rom) {fmt : CString} {ap : List Word} (h : fmt.Supplied rom ap) :
    ∃ calls, putchCalls rom fmt ap = some calls := by
  obtain ⟨calls, hcalls⟩ := runPieces_supplied (fun c calls => calls ++ [c]) (printError_some _ rom) h []
  exact ⟨calls, by rw [putchCalls, vprintfmt, vprintfmtDepth_eq, hcalls]; rfl⟩

theorem takenBy_text (l : List Byte) : takenBy (l.map .literal) = 0 := by
  induction l with
  | nil => rfl
  | cons b l ih => exact List.sum_cons.trans ((Nat.zero_add _).trans ih)

section Malformed

variable (rom : Rom) {pre text rest : CString} (hpre : pre.EndsOutside)
  (htext : Malformed text.bytes rest.bytes) {ap : List Word}
  (hap : (pre ++ cstr "%" ++ text ++ rest).Supplied rom ap)

include hpre htext hap

/-- A malformed escape prints as itself, between what stands before and after it. -/
theorem putchCalls_malformed : ∃ calls calls', putchCalls rom pre ap = some calls ∧
    putchCalls rom rest (ap.drop (pre.taken + text.bytes.count (chr '*'))) = some calls' ∧
    putchCalls rom (pre ++ cstr "%" ++ text ++ rest) ap =
      some (calls ++ (cstr "%" ++ text).bytes.map (BitVec.setWidth 32) ++ calls') := by
  obtain ⟨settings, hstars, hwhole⟩ := parse_malformed hpre htext
  rw [CString.Supplied, hwhole, supplied_append] at hap
  obtain ⟨hfirst, htaken, -, hlast⟩ := hap
  have hescape : (Piece.escape settings .unrecognized).taken = text.bytes.count (chr '*') := hstars
  rw [supplied_append, takenBy_text, List.drop_zero, hescape, List.drop_drop] at hlast
  obtain ⟨calls, hcalls⟩ :=
    runPieces_supplied (fun c calls => calls ++ [c]) (printError_some _ rom) hfirst []
  obtain ⟨calls', hcalls'⟩ := putchCalls_supplied rom hlast.2
  refine ⟨calls, calls', ?_, hcalls', ?_⟩
  · rw [putchCalls, vprintfmt, vprintfmtDepth_eq, hcalls]
    rfl
  · have hstar : stars settings ≤ (ap.drop (takenBy (parse pre.bytes))).length := htaken
    obtain ⟨esc, hset⟩ := foldlM_supplied hstar .start
    have hrun : Piece.run (fun c calls => calls ++ [c]) rom
        (vprintfmtDepth (fun c calls => calls ++ [c]) rom 1)
          (ap.drop (takenBy (parse pre.bytes)), calls) (.escape settings .unrecognized) =
        some (ap.drop (takenBy (parse pre.bytes) + text.bytes.count (chr '*')), calls ++ [0x25]) := by
      rw [Piece.run, hset, hstars, List.drop_drop]
      rfl
    have hfrom := vprintfmt_from rom rest
      (ap.drop (takenBy (parse pre.bytes) + text.bytes.count (chr '*')))
      (calls ++ [0x25] ++ text.bytes.map (BitVec.setWidth 32))
    have hpercent : (cstr "%").bytes.map (BitVec.setWidth 32) = [0x25] := by decide
    rw [hcalls', vprintfmt, vprintfmtDepth_eq] at hfrom
    rw [putchCalls, vprintfmt, vprintfmtDepth_eq, hwhole, runPieces_then hcalls, runPieces,
      List.foldlM_cons, hrun, Option.bind_eq_bind, Option.bind_some, CString.append_bytes,
      List.map_append, hpercent, ← List.append_assoc]
    exact (congrArg (Option.map Prod.snd) (runPieces_text rom _ text.bytes _ _ _)).trans hfrom

end Malformed

/-- Whatever the arguments, a run is that of the pieces of the format, which is
never read past its end; with its arguments it returns, and a malformed escape
prints as it stands. -/
theorem vprintfmt_safe (rom : Rom) :
    (∀ (fmt : CString) (ap : List Word), putchCalls rom fmt ap =
      (runPieces (fun c calls => calls ++ [c]) rom (vprintfmtDepth (fun c calls => calls ++ [c]) rom 1)
        (parse fmt.bytes) ap []).map Prod.snd) ∧
    (∀ (fmt : CString) (ap : List Word), fmt.Supplied rom ap → ∃ calls,
      putchCalls rom fmt ap = some calls) ∧
    ∀ (pre text rest : CString) (ap : List Word), pre.EndsOutside → Malformed text.bytes rest.bytes →
      (pre ++ cstr "%" ++ text ++ rest).Supplied rom ap →
        ∃ calls calls', putchCalls rom pre ap = some calls ∧
          putchCalls rom rest (ap.drop (pre.taken + text.bytes.count (chr '*'))) = some calls' ∧
          putchCalls rom (pre ++ cstr "%" ++ text ++ rest) ap =
            some (calls ++ (cstr "%" ++ text).bytes.map (BitVec.setWidth 32) ++ calls') := by
  refine ⟨fun fmt ap => ?_, fun fmt ap hap => putchCalls_supplied rom hap,
    fun pre text rest ap hpre htext hap => putchCalls_malformed rom hpre htext hap⟩
  rw [putchCalls, vprintfmt, vprintfmtDepth_eq]

theorem vprintfmt_safe_star :
    putchCalls default (cstr "" ++ cstr "%" ++ cstr "*z" ++ cstr "%d") [3, 7] =
      some [0x25, 0x2A, 0x7A, 0x37] := by
  have htext : Malformed (cstr "*z").bytes (cstr "%d").bytes :=
    .inl ⟨[chr '*'], chr 'z', by decide,
      by simp [IsSetting, show switchCase (chr '*') = .flag .star by decide], by decide⟩
  have hnil : (cstr "").bytes = [] := by decide
  have hparse : parse (cstr "" ++ cstr "%" ++ cstr "*z" ++ cstr "%d").bytes =
      [.escape [.flag .star] .unrecognized, .literal (chr '*'), .literal (chr 'z'),
        .escape [] .decimal] := by
    have hbytes : (cstr "" ++ cstr "%" ++ cstr "*z" ++ cstr "%d").bytes =
        [chr '%', chr '*', chr 'z', chr '%', chr 'd'] := by decide
    rw [hbytes]
    simp [parse, afterEscape, parseEscape, EscapeText.set,
      show chr '*' ≠ chr '%' by decide, show chr 'z' ≠ chr '%' by decide,
      show switchCase (chr '*') = .flag .star by decide,
      show switchCase (chr 'z') = .conversion .unrecognized by decide,
      show switchCase (chr 'd') = .conversion .decimal by decide]
  have hap : (cstr "" ++ cstr "%" ++ cstr "*z" ++ cstr "%d").Supplied default [3, 7] := by
    rw [CString.Supplied, hparse]
    simp [Supplied, Piece.taken, Piece.StringReadable, stars, Setting.words, Conversion.taken,
      Conversion.words]
  obtain ⟨calls, calls', hpre, hrest, hwhole⟩ :=
    (vprintfmt_safe default).2.2 (cstr "") (cstr "*z") (cstr "%d") [3, 7] (by decide) htext hap
  have htaken : (cstr "").taken = 0 := by simp [CString.taken, hnil, parse, takenBy]
  have hone : putchCalls default (cstr "") [3, 7] = some [] := by decide
  have htwo : putchCalls default (cstr "%d") [7] = some [0x37] := by decide
  have hcount : (cstr "*z").bytes.count (chr '*') = 1 := by decide
  rw [htaken, hcount] at hrest
  obtain rfl : [] = calls := Option.some.inj (hone.symm.trans hpre)
  obtain rfl : [0x37] = calls' := Option.some.inj (htwo.symm.trans hrest)
  exact hwhole.trans (by decide)

end Jos
