import Jos.Memory
import Jos.Ring

/-! `kern/console.c`, the input half: interrupts put characters into the ring
`cons`, and `cons_getc` polls the devices and takes the next one out. -/

namespace Jos

def CONSBUFSIZE : Nat := 512

inductive Access where
  | write (i : Nat) (c : Byte)
  | read (i : Nat) (c : Byte)
  deriving DecidableEq

def Access.index : Access → Nat
  | .write i _ => i
  | .read i _ => i

def Access.written : Access → Option Byte
  | .write _ c => some c
  | .read _ _ => none

/-- `accesses` lists the accesses to `buf` made so far, the earliest first. -/
structure Cons where
  buf : Nat → Byte
  rpos : Nat
  wpos : Nat
  accesses : List Access

def Cons.zeroed : Cons :=
  ⟨fun _ => 0, 0, 0, []⟩

/-- `cons.buf[cons.wpos++] = c`, with the wrap that follows it. -/
def consStore (c : Byte) (cons : Cons) : Cons :=
  let wpos := cons.wpos + 1
  { cons with
    buf := fun i => if i = cons.wpos then c else cons.buf i
    wpos := if wpos = CONSBUFSIZE then 0 else wpos
    accesses := cons.accesses ++ [.write cons.wpos c] }

/-- `proc` lists what the device answers until it answers -1. -/
def consIntr : List Byte → Cons → Cons
  | [], cons => cons
  | c :: proc, cons => if c = 0 then consIntr proc cons else consIntr proc (consStore c cons)

def serialIntr (serialExists : Bool) (proc : List Byte) (cons : Cons) : Cons :=
  if serialExists then consIntr proc cons else cons

def kbdIntr (proc : List Byte) (cons : Cons) : Cons :=
  consIntr proc cons

/-- The part of `cons_getc` after the polls. -/
def consTake (cons : Cons) : Byte × Cons :=
  if cons.rpos ≠ cons.wpos then
    let c := cons.buf cons.rpos
    let rpos := cons.rpos + 1
    (c, { cons with
      rpos := if rpos = CONSBUFSIZE then 0 else rpos
      accesses := cons.accesses ++ [.read cons.rpos c] })
  else (0, cons)

def consGetc (serialExists : Bool) (serial kbd : List Byte) (cons : Cons) : Byte × Cons :=
  consTake (kbdIntr kbd (serialIntr serialExists serial cons))

inductive ConsEvent where
  | serialIntr (bytes : List Byte)
  | kbdIntr (bytes : List Byte)
  | consGetc (serial kbd : List Byte)

/-- The characters an event hands to `cons_intr`, zero bytes left out. -/
def ConsEvent.delivered (serialExists : Bool) : ConsEvent → List Byte
  | .serialIntr bytes => if serialExists then bytes.filter (· ≠ 0) else []
  | .kbdIntr bytes => bytes.filter (· ≠ 0)
  | .consGetc serial kbd =>
    (if serialExists then serial.filter (· ≠ 0) else []) ++ kbd.filter (· ≠ 0)

/-- The ring with the history of its characters: all that were received and
all that `cons_getc` returned. -/
structure Session where
  cons : Cons
  received : List Byte
  returned : List Byte

def Session.start : Session :=
  ⟨.zeroed, [], []⟩

def Session.step (serialExists : Bool) (s : Session) (e : ConsEvent) : Session :=
  let received := s.received ++ e.delivered serialExists
  match e with
  | .serialIntr bytes => ⟨serialIntr serialExists bytes s.cons, received, s.returned⟩
  | .kbdIntr bytes => ⟨kbdIntr bytes s.cons, received, s.returned⟩
  | .consGetc serial kbd =>
    let got := consGetc serialExists serial kbd s.cons
    ⟨got.2, received, s.returned ++ if got.1 = 0 then [] else [got.1]⟩

def Session.run (serialExists : Bool) (es : List ConsEvent) : Session :=
  es.foldl (Session.step serialExists) .start

/-- At no moment are more than `CONSBUFSIZE - 1` received characters unreturned. -/
def NeverOver (serialExists : Bool) (es : List ConsEvent) : Prop :=
  ∀ pre e post, es = pre ++ e :: post →
    (Session.run serialExists pre).received.length + (e.delivered serialExists).length ≤
      (Session.run serialExists pre).returned.length + (CONSBUFSIZE - 1)

/-- The characters of an event arrive, after which `cons_getc` alone takes one out. -/
def ConsEvent.arrive (serialExists : Bool) (cons : Cons) : ConsEvent → Cons
  | .serialIntr bytes => Jos.serialIntr serialExists bytes cons
  | .kbdIntr bytes => Jos.kbdIntr bytes cons
  | .consGetc serial kbd => Jos.kbdIntr kbd (Jos.serialIntr serialExists serial cons)

theorem consIntr_induction {P : Cons → List Byte → Prop}
    (hstore : ∀ c cons w, c ≠ 0 → P cons w → P (consStore c cons) (w ++ [c]))
    (proc : List Byte) {cons : Cons} {w : List Byte} (h : P cons w) :
    P (consIntr proc cons) (w ++ proc.filter (· ≠ 0)) := by
  induction proc generalizing cons w with
  | nil => simpa [consIntr] using h
  | cons c proc ih =>
    by_cases hc : c = 0
    · rw [consIntr, if_pos hc, List.filter_cons_of_neg (by simpa using hc)]
      exact ih h
    · rw [consIntr, if_neg hc, List.filter_cons_of_pos (by simpa using hc), List.append_cons]
      exact ih (hstore c cons w hc h)

theorem ConsEvent.arrive_induction {P : Cons → List Byte → Prop}
    (hstore : ∀ c cons w, c ≠ 0 → P cons w → P (consStore c cons) (w ++ [c]))
    (serialExists : Bool) (e : ConsEvent) (cons : Cons) (w : List Byte) (h : P cons w) :
    P (e.arrive serialExists cons) (w ++ e.delivered serialExists) := by
  have hserial : ∀ bytes, P (Jos.serialIntr serialExists bytes cons)
      (w ++ if serialExists then bytes.filter (· ≠ 0) else []) := by
    intro bytes
    cases serialExists with
    | false => simpa [Jos.serialIntr] using h
    | true => exact consIntr_induction hstore bytes h
  cases e with
  | serialIntr bytes => exact hserial bytes
  | kbdIntr bytes => exact consIntr_induction hstore bytes h
  | consGetc serial kbd =>
    rw [delivered, ← List.append_assoc]
    exact consIntr_induction hstore kbd (hserial serial)

theorem Session.step_received (serialExists : Bool) (s : Session) (e : ConsEvent) :
    (s.step serialExists e).received = s.received ++ e.delivered serialExists := by
  cases e <;> rfl

theorem Session.step_cases (serialExists : Bool) (s : Session) (e : ConsEvent) :
    ((s.step serialExists e).cons = e.arrive serialExists s.cons ∧
      (s.step serialExists e).returned = s.returned) ∨
    ((s.step serialExists e).cons = (consTake (e.arrive serialExists s.cons)).2 ∧
      (s.step serialExists e).returned = s.returned ++
        if (consTake (e.arrive serialExists s.cons)).1 = 0 then []
        else [(consTake (e.arrive serialExists s.cons)).1]) := by
  cases e with
  | serialIntr bytes => exact .inl ⟨rfl, rfl⟩
  | kbdIntr bytes => exact .inl ⟨rfl, rfl⟩
  | consGetc serial kbd => exact .inr ⟨rfl, rfl⟩

theorem ConsEvent.delivered_nonzero {serialExists : Bool} {e : ConsEvent} {c : Byte}
    (h : c ∈ e.delivered serialExists) : c ≠ 0 := by
  have hh : ∀ x ∈ [] ++ e.delivered serialExists, x ≠ 0 := by
    refine e.arrive_induction (P := fun _ w => ∀ x ∈ w, x ≠ 0) ?_ serialExists .zeroed [] (by simp)
    intro c _ w hc hw x hx
    rcases List.mem_append.mp hx with hx | hx
    · exact hw x hx
    · rw [List.mem_singleton.mp hx]
      exact hc
  exact hh c h

/-- The ring of the source is the general one, with `CONSBUFSIZE` slots. -/
def Cons.ring (cons : Cons) : Ring Byte :=
  ⟨cons.buf, cons.rpos, cons.wpos⟩

theorem consTake_of_take_none {cons : Cons} (h : cons.ring.take CONSBUFSIZE = none) :
    consTake cons = (0, cons) := by
  unfold Ring.take at h
  unfold consTake
  split_ifs at h with hne
  exact if_neg hne

theorem consTake_of_take_some {cons : Cons} {c : Byte} {q : Ring Byte}
    (h : cons.ring.take CONSBUFSIZE = some (c, q)) :
    (consTake cons).1 = c ∧ (consTake cons).2.ring = q ∧
      (consTake cons).2.accesses = cons.accesses ++ [.read cons.rpos c] := by
  unfold Ring.take at h
  unfold consTake
  split_ifs at h with hne
  obtain ⟨rfl, rfl⟩ := Prod.mk.inj (Option.some.inj h)
  have hne' : cons.rpos ≠ cons.wpos := hne
  rw [if_pos hne']
  exact ⟨rfl, rfl, rfl⟩

end Jos
