import Mathlib.Tactic.Common

/-!
# Code that takes notes

To say what a program does on its way, and not only what it returns, it is written once more with
notes: of the places it reads, or the messages it sends. The notes of a program that aborts remain.
That the two are the same program is `Erases`, which is shown along their binds.
-/

/-- Code that notes elements of `ι` and can abort with `ε`. -/
abbrev Noting (ι ε : Type) := ExceptT ε (StateM (List ι))

namespace Noting
variable {ι ε α β : Type}

/-- What the code returns, and all that is noted when it starts with `noted`. -/
def runFrom (m : Noting ι ε α) (noted : List ι) : Except ε α × List ι := m.run.run noted

/-- What the code notes. -/
def notes (m : Noting ι ε α) : List ι := (m.runFrom []).2

/-- One more note. -/
def note (i : ι) : Noting ι ε Unit := modify fun noted => noted ++ [i]

theorem runFrom_bind (m : Noting ι ε α) (f : α → Noting ι ε β) (noted : List ι) :
    (m >>= f).runFrom noted = match m.runFrom noted with
      | (.ok a, noted) => (f a).runFrom noted
      | (.error e, noted) => (.error e, noted) := by
  show (match m.runFrom noted with | (r, noted) => StateT.run (ExceptT.bindCont f r) noted) = _
  generalize m.runFrom noted = r
  obtain ⟨x, noted'⟩ := r
  cases x with
  | error e => rfl
  | ok a => rfl

/-- Code of the plain program notes nothing. -/
theorem runFrom_lift (x : Except ε α) (noted : List ι) :
    (liftM x : Noting ι ε α).runFrom noted = (x, noted) := rfl

/-- A note is put behind the others. -/
theorem runFrom_note_bind (i : ι) (f : Unit → Noting ι ε β) (noted : List ι) :
    (note i >>= f).runFrom noted = (f ()).runFrom (noted ++ [i]) := rfl

section Ok
variable {m : Noting ι ε α} {f : α → Noting ι ε β} {x : Except ε α} {a : α} {b : β}
  {noted noted' : List ι}

theorem runFrom_bind_eq_ok : (m >>= f).runFrom noted = (.ok b, noted') ↔
    ∃ a mid, m.runFrom noted = (.ok a, mid) ∧ (f a).runFrom mid = (.ok b, noted') := by
  rw [runFrom_bind]
  generalize m.runFrom noted = r
  obtain ⟨x, mid⟩ := r
  cases x with
  | error e =>
    constructor
    · rintro ⟨⟩
    · rintro ⟨a, mid, ⟨⟩, -⟩
  | ok a =>
    constructor
    · intro h
      exact ⟨a, mid, rfl, h⟩
    · rintro ⟨a', mid', ⟨⟩, h⟩
      exact h

theorem runFrom_lift_eq_ok :
    (liftM x : Noting ι ε α).runFrom noted = (.ok a, noted') ↔ x = .ok a ∧ noted = noted' := by
  rw [runFrom_lift, Prod.mk.injEq]

theorem runFrom_note_eq_ok {i : ι} {u : Unit} :
    (note i : Noting ι ε Unit).runFrom noted = (.ok u, noted') ↔ noted ++ [i] = noted' :=
  ⟨fun h => congrArg Prod.snd h, fun h => h ▸ rfl⟩

end Ok

/-- Without its notes the code is `x`. -/
def Erases (m : Noting ι ε α) (x : Except ε α) : Prop := ∀ noted, (m.runFrom noted).1 = x

section Erases
variable {m : Noting ι ε α} {f : α → Noting ι ε β} {x : Except ε α} {g : α → Except ε β}
  {y : Except ε β}

theorem erases_lift (x : Except ε α) : Erases (liftM x : Noting ι ε α) x := fun _ => rfl

theorem Erases.bind (hm : Erases m x) (hf : ∀ a, x = .ok a → Erases (f a) (g a)) :
    Erases (m >>= f) (x >>= g) := by
  intro noted
  have hx := hm noted
  rw [runFrom_bind]
  generalize m.runFrom noted = r at hx
  obtain ⟨z, noted'⟩ := r
  obtain rfl : z = x := hx
  cases z with
  | error e => rfl
  | ok a => exact hf a rfl noted'

/-- Taking a note first makes no difference. -/
theorem Erases.note_bind {i : ι} {f : Unit → Noting ι ε β} (h : Erases (f ()) y) :
    Erases (note i >>= f) y := by
  intro noted
  rw [runFrom_note_bind]
  exact h _

/-- Code whose plain form returns `a` returns it with its notes. -/
theorem Erases.run_of_ok {a : α} (h : Erases m x) (hx : x = .ok a) : m.runFrom [] = (.ok a, m.notes) :=
  Prod.ext ((h []).trans hx) rfl

end Erases

end Noting
