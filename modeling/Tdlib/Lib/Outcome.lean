/-
What a call can do: return a value, return an error status, or abort the
process. An abort is not a status: no caller sees it, and nothing runs after
it.
-/
import Mathlib.Logic.Basic

namespace Tdlib

/-- A returned value, an error status with its message, or an abort. -/
inductive Outcome (α : Type)
  | ok (a : α)
  | error (message : String)
  | fatal
  deriving DecidableEq, Repr

namespace Outcome

instance : Monad Outcome where
  pure := .ok
  bind
    | .ok a, f => f a
    | .error e, _ => .error e
    | .fatal, _ => .fatal

variable {α β : Type}

@[simp] theorem pure_def (a : α) : (pure a : Outcome α) = .ok a := rfl
@[simp] theorem ok_bind (a : α) (f : α → Outcome β) : (Outcome.ok a >>= f) = f a := rfl
@[simp] theorem error_bind (e : String) (f : α → Outcome β) : (Outcome.error e >>= f) = .error e := rfl
@[simp] theorem fatal_bind (f : α → Outcome β) : (Outcome.fatal >>= f) = .fatal := rfl

instance : LawfulMonad Outcome :=
  LawfulMonad.mk' _ (fun x => by cases x <;> rfl) (fun _ _ => rfl) (fun x _ _ => by cases x <;> rfl)

@[simp] theorem bind_ok (x : Outcome α) : x >>= Outcome.ok = x := by cases x <;> rfl

variable {x : Outcome α} {f : α → Outcome β}

theorem ok_ne_fatal {a : α} : Outcome.ok a ≠ .fatal := by
  intro heq
  cases heq

theorem bind_ok_iff {y : β} : (x >>= f) = .ok y ↔ ∃ a, x = .ok a ∧ f a = .ok y := by
  cases x <;> simp

theorem mapM_cons_ok {x : α} {xs : List α} {ys : List β}
    (h : (x :: xs).mapM f = .ok ys) : ∃ y ys', f x = .ok y ∧ xs.mapM f = .ok ys' ∧ ys = y :: ys' := by
  rw [List.mapM_cons, bind_ok_iff] at h
  obtain ⟨y, hy, h⟩ := h
  rw [bind_ok_iff] at h
  obtain ⟨ys', hys', h⟩ := h
  cases h
  exact ⟨y, ys', hy, hys', rfl⟩

theorem mapM_eq_ok {g : α → β} {xs : List α} (h : ∀ x ∈ xs, f x = .ok (g x)) :
    xs.mapM f = .ok (xs.map g) := by
  induction xs with
  | nil => rfl
  | cons x xs ih => simp [h x (by simp), ih fun y hy => h y (by simp [hy])]

def isOk {α : Type} : Outcome α → Bool
  | .ok _ => true
  | _ => false

/-- The value of a run that succeeds. -/
def get {α : Type} (x : Outcome α) (h : x.isOk = true) : α :=
  match x, h with
  | .ok a, _ => a

theorem eq_ok_get (x : Outcome α) (h : x.isOk = true) : x = .ok (x.get h) := by
  cases x with
  | ok a => rfl
  | error | fatal => cases h

/-- The value of a run, and `a` when it fails. -/
def getD {α : Type} (x : Outcome α) (a : α) : α :=
  match x with
  | .ok b => b
  | _ => a

theorem eq_ok_getD (h : x.isOk = true) (a : α) : x = .ok (x.getD a) := by
  cases x with
  | ok b => rfl
  | error | fatal => cases h

/-- An assertion: the process aborts unless `p`. -/
def check (p : Prop) [Decidable p] : Outcome Unit := if p then .ok () else .fatal

variable {p : Prop} [Decidable p]

@[simp] theorem check_true (h : p) : check p = .ok () := if_pos h

@[simp] theorem check_ok_iff {u : Unit} : check p = .ok u ↔ p := by
  unfold check; split <;> simp_all

/-- An error status unless `p`. -/
def ensure (p : Prop) [Decidable p] (message : String) : Outcome Unit := if p then .ok () else .error message

@[simp] theorem ensure_true (h : p) (message : String) : ensure p message = .ok () := if_pos h

@[simp] theorem ensure_ok_iff {message : String} {u : Unit} : ensure p message = .ok u ↔ p := by
  unfold ensure; split <;> simp_all

theorem ensure_ne_fatal (p : Prop) [Decidable p] (message : String) : ensure p message ≠ .fatal := by
  unfold ensure; split <;> simp

theorem bind_ne_fatal (hx : x ≠ .fatal) (hf : ∀ a, x = .ok a → f a ≠ .fatal) : (x >>= f) ≠ .fatal := by
  cases x with
  | ok a => exact hf a rfl
  | error e => simp
  | fatal => exact absurd rfl hx

theorem check_fatal_iff : check p = .fatal ↔ ¬ p := by
  unfold check; split <;> simp_all

theorem bind_fatal_iff : (x >>= f) = .fatal ↔ x = .fatal ∨ ∃ a, x = .ok a ∧ f a = .fatal := by
  cases x <;> simp

/-- What a call on `s` leaves behind and returns, where it changes nothing unless
it succeeds. -/
def commit {σ α : Type} (s : σ) : Outcome (σ × α) → σ × Outcome α
  | .ok (s', a) => (s', .ok a)
  | .error e => (s, .error e)
  | .fatal => (s, .fatal)

theorem commit_ok_iff {σ : Type} {s s' : σ} {x : Outcome (σ × α)} {a : α} :
    x.commit s = (s', .ok a) ↔ x = .ok (s', a) := by
  rcases x with ⟨s1, b⟩ | e | _ <;> simp [commit]

theorem commit_cases {σ : Type} (s : σ) (x : Outcome (σ × α)) :
    (∃ s' a, x = .ok (s', a) ∧ x.commit s = (s', .ok a)) ∨ ((x.commit s).1 = s ∧ (x.commit s).2.isOk = false) := by
  rcases x with ⟨s', a⟩ | e | _
  · exact .inl ⟨s', a, rfl, rfl⟩
  · exact .inr ⟨rfl, rfl⟩
  · exact .inr ⟨rfl, rfl⟩

/-- Two calls that do the same, up to `R` on what they return. -/
def Rel {α β : Type} (R : α → β → Prop) : Outcome α → Outcome β → Prop
  | .ok a, .ok b => R a b
  | .error e, .error e' => e = e'
  | .fatal, .fatal => True
  | _, _ => False

variable {R : α → β → Prop} {y : Outcome β}

theorem Rel.bind {γ δ : Type} {S : γ → δ → Prop} {f : α → Outcome γ} {g : β → Outcome δ} (h : Rel R x y)
    (hfg : ∀ a b, R a b → Rel S (f a) (g b)) : Rel S (x >>= f) (y >>= g) := by
  cases x <;> cases y <;> first | exact h.elim | exact hfg _ _ h | exact h

theorem Rel.mono {S : α → β → Prop} (h : Rel R x y) (hRS : ∀ a b, R a b → S a b) : Rel S x y := by
  cases x <;> cases y <;> first | exact h.elim | exact hRS _ _ h | exact h

theorem Rel.refl (x : Outcome α) : Rel Eq x x := by
  cases x with
  | ok | error => exact rfl
  | fatal => trivial

theorem Rel.eq {x y : Outcome α} (h : Rel Eq x y) : x = y := by
  cases x <;> cases y <;> first | exact h.elim | exact congrArg _ h | rfl

/-- Two calls that both succeed, with results in `R`, or both return an error
status. Neither aborts. -/
def Agree {α β : Type} (R : α → β → Prop) : Outcome α → Outcome β → Prop
  | .ok a, .ok b => R a b
  | .error _, .error _ => True
  | _, _ => False

theorem Agree.bind {γ δ : Type} {S : γ → δ → Prop} {f : α → Outcome γ} {g : β → Outcome δ} (h : Agree R x y)
    (hfg : ∀ a b, R a b → Agree S (f a) (g b)) : Agree S (x >>= f) (y >>= g) := by
  cases x <;> cases y <;> first | exact h.elim | exact hfg _ _ h | trivial

theorem Agree.mono {S : α → β → Prop} (h : Agree R x y) (hRS : ∀ a b, R a b → S a b) : Agree S x y := by
  cases x <;> cases y <;> first | exact h.elim | exact hRS _ _ h | trivial

theorem agree_ensure {q : Prop} [Decidable q] (h : p ↔ q) (m m' : String) :
    Agree (fun _ _ => p) (ensure p m) (ensure q m') := by
  by_cases hp : p
  · rw [ensure_true hp, ensure_true (h.mp hp)]
    exact hp
  · rw [ensure, ensure, if_neg hp, if_neg fun hq => hp (h.mpr hq)]
    trivial

theorem Agree.isOk_eq (h : Agree R x y) : x.isOk = y.isOk := by
  cases x <;> cases y <;> first | exact h.elim | rfl

theorem Rel.foldlM {γ : Type} {R : β → γ → Prop} {f : β → α → Outcome β} {g : γ → α → Outcome γ}
    (hfg : ∀ b c a, R b c → Rel R (f b a) (g c a)) (l : List α) {b : β} {c : γ} (h : R b c) :
    Rel R (l.foldlM f b) (l.foldlM g c) := by
  induction l generalizing b c with
  | nil => exact h
  | cons a l ih =>
    exact (hfg b c a h).bind fun _ _ h' => ih h'

/-- A property every step keeps holds after a whole run. -/
theorem foldlM_inv {f : β → α → Outcome β} {I : β → Prop}
    (keeps : ∀ {b a b'}, I b → f b a = .ok b' → I b') {l : List α} {b r : β} (hb : I b)
    (hr : l.foldlM f b = .ok r) : I r := by
  induction l generalizing b with
  | nil => cases hr; exact hb
  | cons a l ih =>
    rw [List.foldlM_cons, bind_ok_iff] at hr
    obtain ⟨b', hstep, hrest⟩ := hr
    exact ih (keeps hb hstep) hrest

/-- A run whose steps all succeed from states with `I` succeeds, and ends in
a state with `I`. -/
theorem foldlM_total {f : β → α → Outcome β} {I : List α → β → Prop}
    (goes : ∀ {a l b}, I (a :: l) b → ∃ b', f b a = .ok b' ∧ I l b') {l : List α} {b : β} (hb : I l b) :
    ∃ r, l.foldlM f b = .ok r ∧ I [] r := by
  induction l generalizing b with
  | nil => exact ⟨b, rfl, hb⟩
  | cons a l ih =>
    obtain ⟨b', hstep, hb'⟩ := goes hb
    obtain ⟨r, hr, hI⟩ := ih hb'
    refine ⟨r, ?_, hI⟩
    rw [List.foldlM_cons, hstep, ok_bind, hr]

end Outcome

end Tdlib
