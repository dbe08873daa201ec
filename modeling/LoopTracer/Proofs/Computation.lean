import Mathlib.Algebra.Group.Int.Defs
import Mathlib.Algebra.GroupWithZero.Nat
import Mathlib.Data.List.Forall2
import Mathlib.Order.Defs.Unbundled
import LoopTracer.Fault

/-! Computations with a state that may stop.

The interpreter, the recorder and the monitor are all written as such computations. These are the
laws that proofs run them with, one operation after the other, and the laws of what a computation
keeps however it ends. -/
namespace LoopTracer

/-- A fault other than giving back a page that is not in use. -/
def Tame (f : Fault) : Prop := ∀ kind page, f ≠ .freeingPage kind page

variable {ε σ α β : Type} {x : EStateM ε σ α} {f : α → EStateM ε σ β} {s s' : σ}

theorem bind_ok {a : α} (h : x s = .ok a s') : (x >>= f) s = f a s' := by
  show EStateM.bind x f s = _
  rw [EStateM.bind, h]

theorem bind_error {e : ε} (h : x s = .error e s') : (x >>= f) s = .error e s' := by
  show EStateM.bind x f s = _
  rw [EStateM.bind, h]

/-- A computation that succeeds does so in both its parts. -/
theorem bind_eq_ok {b : β} (h : (x >>= f) s = .ok b s') :
    ∃ a s₁, x s = .ok a s₁ ∧ f a s₁ = .ok b s' := by
  change EStateM.bind x f s = _ at h
  rw [EStateM.bind] at h
  split at h
  · next a s₁ hx => exact ⟨a, s₁, hx, h⟩
  · cases h

/-- A computation that stops does so in one of its parts. -/
theorem bind_eq_error {e : ε} (h : (x >>= f) s = .error e s') :
    x s = .error e s' ∨ ∃ a s₁, x s = .ok a s₁ ∧ f a s₁ = .error e s' := by
  change EStateM.bind x f s = _ at h
  rw [EStateM.bind] at h
  split at h
  · next a s₁ hx => exact .inr ⟨a, s₁, hx, h⟩
  · next hx => exact .inl (by rw [hx]; cases h; rfl)

/-! ### What a computation keeps -/

/-- A property of states that is not lost. -/
def Preserves (P : σ → Prop) (s s' : σ) : Prop := P s → P s'

instance (P : σ → Prop) : IsPreorder σ (Preserves P) where
  refl _ := id
  trans _ _ _ h h' := h' ∘ h

/-- However a computation ends that begins in `s`, its last state is related to `s` by `R`, and what
stops it is as `E` says. -/
def KeepsAt (R : σ → σ → Prop) (E : ε → Prop) (x : EStateM ε σ α) (s : σ) : Prop :=
  match x s with
  | .ok _ s' => R s s'
  | .error e s' => R s s' ∧ E e

/-- The same wherever it begins. -/
def Keeps (R : σ → σ → Prop) (E : ε → Prop) (x : EStateM ε σ α) : Prop := ∀ s, KeepsAt R E x s

section Keeps

variable {R : σ → σ → Prop} {E : ε → Prop}

theorem keepsAt_ok {a : α} (h : x s = .ok a s') : KeepsAt R E x s ↔ R s s' := by
  rw [KeepsAt, h]

theorem keepsAt_error {e : ε} (h : x s = .error e s') : KeepsAt R E x s ↔ R s s' ∧ E e := by
  rw [KeepsAt, h]

theorem Keeps.ok {a : α} (hx : Keeps R E x) (h : x s = .ok a s') : R s s' :=
  (keepsAt_ok h).mp (hx s)

theorem Keeps.error {e : ε} (hx : Keeps R E x) (h : x s = .error e s') : R s s' ∧ E e :=
  (keepsAt_error h).mp (hx s)

theorem Keeps.mono {R' : σ → σ → Prop} {E' : ε → Prop} (hx : Keeps R E x)
    (hR : ∀ s s', R s s' → R' s s') (hE : ∀ e, E e → E' e) : Keeps R' E' x := by
  intro s
  cases h : x s with
  | ok a s' => exact (keepsAt_ok h).mpr (hR _ _ (hx.ok h))
  | error e s' => exact (keepsAt_error h).mpr ⟨hR _ _ (hx.error h).1, hE _ (hx.error h).2⟩

variable [IsPreorder σ R]

/-- The second part begins where the first one ends. -/
theorem KeepsAt.bind (hx : KeepsAt R E x s) (hf : ∀ a s', x s = .ok a s' → KeepsAt R E (f a) s') :
    KeepsAt R E (x >>= f) s := by
  cases h : x s with
  | ok a s₁ =>
    have hfirst := (keepsAt_ok h).mp hx
    have hrest := hf a s₁ h
    rw [KeepsAt, bind_ok h]
    cases h' : f a s₁ with
    | ok b s' => exact trans_of R hfirst ((keepsAt_ok h').mp hrest)
    | error e s' =>
      exact ⟨trans_of R hfirst ((keepsAt_error h').mp hrest).1, ((keepsAt_error h').mp hrest).2⟩
  | error e s' => exact (keepsAt_error (bind_error h)).mpr ((keepsAt_error h).mp hx)

/-- A computation that goes on as another one does from a later state. -/
theorem KeepsAt.after {y : EStateM ε σ α} (hs : R s s') (hy : KeepsAt R E y s') (h : x s = y s') :
    KeepsAt R E x s := by
  cases h' : y s' with
  | ok a s₁ => exact (keepsAt_ok (h.trans h')).mpr (trans_of R hs ((keepsAt_ok h').mp hy))
  | error e s₁ =>
    have hy := (keepsAt_error h').mp hy
    exact (keepsAt_error (h.trans h')).mpr ⟨trans_of R hs hy.1, hy.2⟩

theorem Keeps.bind (hx : Keeps R E x) (hf : ∀ a, Keeps R E (f a)) : Keeps R E (x >>= f) :=
  fun s => .bind (hx s) fun a s' _ => hf a s'

theorem Keeps.pure (a : α) : Keeps R E (Pure.pure a : EStateM ε σ α) := fun s => refl_of R s

theorem Keeps.get : Keeps R E (MonadState.get : EStateM ε σ σ) := fun s => refl_of R s

theorem Keeps.throw {e : ε} (he : E e) : Keeps R E (throw e : EStateM ε σ α) :=
  fun s => ⟨refl_of R s, he⟩

omit [IsPreorder σ R] in
theorem Keeps.modify {g : σ → σ} (h : ∀ s, R s (g s)) :
    Keeps R E (modify g : EStateM ε σ PUnit) := h

theorem Keeps.forM {ι : Type} {g : ι → EStateM ε σ PUnit} (hg : ∀ i, Keeps R E (g i)) (l : List ι) :
    Keeps R E (l.forM g) := by
  induction l with
  | nil => exact .pure _
  | cons i l ih => exact .bind (hg i) fun _ => ih

end Keeps

/-! ### How a computation ends -/

/-- A computation that begins in `s` ends as `Q` says if it succeeds, and as `E` says if it is
stopped. -/
def Ensures (E : ε → σ → Prop) (x : EStateM ε σ α) (s : σ) (Q : α → σ → Prop) : Prop :=
  match x s with
  | .ok a s' => Q a s'
  | .error e s' => E e s'

/-- What stops a computation does no harm. -/
def Harmless (f : Fault) (_ : σ) : Prop := Tame f

/-- Anything may stop a computation. -/
def Anyhow (_ : ε) (_ : σ) : Prop := True

/-- What stops a computation may be that something is not where it is looked for. -/
class Lenient (E : Fault → σ → Prop) : Prop where
  bounds : ∀ s, E .bounds s

instance : Lenient (Harmless : Fault → σ → Prop) := ⟨fun _ _ _ h => by cases h⟩

instance : Lenient (Anyhow : Fault → σ → Prop) := ⟨fun _ => trivial⟩

section Ensures

variable {E : ε → σ → Prop} {Q : α → σ → Prop} {Q' : β → σ → Prop}

theorem ensures_ok {a : α} (h : x s = .ok a s') : Ensures E x s Q ↔ Q a s' := by
  rw [Ensures, h]

theorem ensures_error {e : ε} (h : x s = .error e s') : Ensures E x s Q ↔ E e s' := by
  rw [Ensures, h]

theorem Ensures.bind (hx : Ensures E x s Q) (hf : ∀ a s', Q a s' → Ensures E (f a) s' Q') :
    Ensures E (x >>= f) s Q' := by
  cases h : x s with
  | ok a s' =>
    have := hf a s' ((ensures_ok h).mp hx)
    unfold Ensures at this ⊢
    rwa [bind_ok h]
  | error e s' => exact (ensures_error (bind_error h)).mpr ((ensures_error h).mp hx)

theorem Ensures.mono {R : α → σ → Prop} (hx : Ensures E x s Q) (h : ∀ a s', Q a s' → R a s') :
    Ensures E x s R := by
  cases hs : x s with
  | ok a s' => exact (ensures_ok hs).mpr (h a s' ((ensures_ok hs).mp hx))
  | error e s' => exact (ensures_error hs).mpr ((ensures_error hs).mp hx)

/-- A computation may be stopped in more ways than it is. -/
theorem Ensures.stops {E' : ε → σ → Prop} (hx : Ensures E x s Q)
    (h : ∀ e s', E e s' → E' e s') : Ensures E' x s Q := by
  cases hs : x s with
  | ok a s' => exact (ensures_ok hs).mpr ((ensures_ok hs).mp hx)
  | error e s' => exact (ensures_error hs).mpr (h e s' ((ensures_error hs).mp hx))

theorem Ensures.anyhow (hx : Ensures E x s Q) : Ensures Anyhow x s Q :=
  hx.stops fun _ _ _ => trivial

theorem Ensures.pure {a : α} (h : Q a s) : Ensures E (Pure.pure a : EStateM ε σ α) s Q := h

theorem Ensures.pure_bind {a : α} (h : Ensures E (f a) s Q') :
    Ensures E (Pure.pure a >>= f) s Q' := h

/-- A computation that begins with a look at the state. -/
theorem Ensures.get {f : σ → EStateM ε σ β} (h : Ensures E (f s) s Q') :
    Ensures E (MonadState.get >>= f) s Q' := h

theorem Ensures.throw {e : ε} (he : E e s) : Ensures E (throw e : EStateM ε σ α) s Q := he

theorem Ensures.modify {g : σ → σ} {Q : PUnit → σ → Prop} (h : Q .unit (g s)) :
    Ensures E (modify g : EStateM ε σ PUnit) s Q := h

theorem Ensures.modify_bind {g : σ → σ} {f : PUnit → EStateM ε σ β}
    (h : Ensures E (f .unit) (g s) Q') :
    Ensures E (MonadStateOf.modifyGet (fun s => (PUnit.unit, g s)) >>= f) s Q' := h

/-- The answer may be ignored. -/
theorem Ensures.ignored {Q : σ → Prop} (hx : Ensures E x s fun _ => Q) :
    Ensures E (Functor.discard x) s fun _ => Q := by
  cases h : x s with
  | ok a s' =>
    have hmap : Functor.discard x s = .ok () s' := by
      show EStateM.map _ x s = _
      rw [EStateM.map, h]
    exact (ensures_ok hmap).mpr ((ensures_ok h).mp hx)
  | error e s' =>
    have hmap : Functor.discard x s = .error e s' := by
      show EStateM.map _ x s = _
      rw [EStateM.map, h]
    exact (ensures_error hmap).mpr ((ensures_error h).mp hx)

/-- What a computation keeps wherever it begins, it keeps here. -/
theorem Keeps.ensures {R : σ → σ → Prop} {P : ε → Prop} (hx : Keeps R P x) (s : σ) :
    Ensures (fun e s' => R s s' ∧ P e) x s fun _ s' => R s s' := by
  cases h : x s with
  | ok a s' => exact (ensures_ok h).mpr (hx.ok h)
  | error e s' => exact (ensures_error h).mpr (hx.error h)

/-- A computation ends as it does and keeps what it keeps. -/
theorem Ensures.keeping {R : σ → σ → Prop} {P : ε → Prop} (hx : Ensures E x s Q)
    (hk : Keeps R P x) :
    Ensures E x s fun a s' => Q a s' ∧ R s s' := by
  cases h : x s with
  | ok a s' => exact (ensures_ok h).mpr ⟨(ensures_ok h).mp hx, hk.ok h⟩
  | error e s' => exact (ensures_error h).mpr ((ensures_error h).mp hx)

/-- The same, if it does not matter where it is stopped. -/
theorem Keeps.ends {R : σ → σ → Prop} {P : ε → Prop} (hx : Keeps R P x) (s : σ) :
    Ensures (fun e _ => P e) x s fun _ s' => R s s' := by
  cases h : x s with
  | ok a s' => exact (ensures_ok h).mpr (hx.ok h)
  | error e s' => exact (ensures_error h).mpr (hx.error h).2

end Ensures

/-! ### Answers without a state -/

theorem ok_bind (a : α) (f : α → Except ε β) : (Except.ok a >>= f) = f a := rfl

/-- An answer in two parts is one in both. -/
theorem answer_eq_ok {x : Except ε α} {f : α → Except ε β} {b : β} (h : (x >>= f) = .ok b) :
    ∃ a, x = .ok a ∧ f a = .ok b := by
  cases x with
  | error e => cases h
  | ok a => exact ⟨a, rfl, h⟩

/-- An answer satisfies `P`, and what stands in its place is as `E` says. -/
def Answers (E : ε → Prop) (x : Except ε α) (P : α → Prop) : Prop :=
  match x with
  | .ok a => P a
  | .error e => E e

namespace Answers

variable {E : ε → Prop} {P Q : α → Prop} {R : β → Prop} {x : Except ε α} {f : α → Except ε β}

theorem bind (hx : Answers E x P) (hf : ∀ a, P a → Answers E (f a) R) : Answers E (x >>= f) R := by
  cases x with
  | error e => exact hx
  | ok a => exact hf a hx

theorem mono (hx : Answers E x P) (h : ∀ a, P a → Q a) : Answers E x Q := by
  cases x with
  | error e => exact hx
  | ok a => exact h a hx

theorem mapError {ε' : Type} {E' : ε' → Prop} {g : ε → ε'} (hx : Answers E x P)
    (h : ∀ e, E e → E' (g e)) : Answers E' (x.mapError g) P := by
  cases x with
  | error e => exact h e hx
  | ok a => exact hx

/-- What every step keeps, a loop over a list keeps. -/
theorem foldlM {f : β → α → Except ε β} {l : List α} {b : β} (hb : R b)
    (hf : ∀ a ∈ l, ∀ b, R b → Answers E (f b a) R) : Answers E (l.foldlM f b) R := by
  induction l generalizing b with
  | nil => exact hb
  | cons a rest ih =>
    rw [List.foldlM_cons]
    refine (hf a (by simp) b hb).bind fun b' hb' => ?_
    exact ih hb' fun a' ha' => hf a' (by simp [ha'])

theorem mapM {S : α → β → Prop} {xs : Array α} (hf : ∀ a ∈ xs, Answers E (f a) (S a)) :
    Answers E (xs.mapM f) fun out => List.Forall₂ S xs.toList out.toList := by
  have hlist : ∀ l : List α, (∀ a ∈ l, Answers E (f a) (S a)) →
      Answers E (l.mapM f) (List.Forall₂ S l) := by
    intro l hl
    induction l with
    | nil => exact .nil
    | cons a rest ih =>
      rw [List.mapM_cons]
      refine (hl a (by simp)).bind fun b hb => ?_
      exact (ih fun a' ha' => hl a' (by simp [ha'])).bind fun bs hbs => .cons hb hbs
  rw [Array.mapM_eq_mapM_toList, map_eq_pure_bind]
  exact (hlist xs.toList fun a ha => hf a (by simpa using ha)).bind fun _ h => h

end Answers

end LoopTracer
