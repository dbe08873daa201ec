import LoopTracer.Proofs.Compile.Linking
import LoopTracer.Proofs.Compile.Restoring

/-! Values and their places.

Every operation of the allocator writes the code that makes up for what it changes in the tables
(`Works`): values are taken out of registers and put into others, and what relied on the places
before finds them there. -/
namespace LoopTracer.Compile

open Machine Trace

/-- The tables stand for something, and the code is strung together as pieces. -/
structure Stage (set : Setting) (r : CodePages) (l : List Nat) (P : Side → List Piece)
    (s : Allocation) : Prop where
  regs : s.regs.Represents set
  code : Code.Laced set.backend r l s.code P

/-- Unless it is stopped, an operation puts code in front of the main code that makes up for its
changes of the tables. -/
def Works {α : Type} (set : Setting) (r : CodePages) (l : List Nat) (K O : Reg → Prop)
    (P : Side → List Piece) (x : Allocating α) (s : Allocation) (Q : α → Registers → Prop) : Prop :=
  Ensures Anyhow x s fun a s' => ∃ q, Stage set r l (Code.fronted P .main q) s' ∧
    Restores set K O s.regs s'.regs (requests q) ∧ Q a s'.regs

namespace Works

variable {α β : Type} {set : Setting} {r : CodePages} {l : List Nat} {K O : Reg → Prop}
  {P : Side → List Piece} {s : Allocation} {Q : α → Registers → Prop} {Q' : β → Registers → Prop}

theorem pure (hs : Stage set r l P s) {a : α} (h : Q a s.regs) :
    Works set r l K O P (Pure.pure a) s Q :=
  Ensures.pure ⟨[], (Code.fronted_nil P .main).symm ▸ hs, .refl set K O s.regs, h⟩

theorem bind {x : Allocating α} {f : α → Allocating β} (hx : Works set r l K O P x s Q)
    (hf : ∀ a P' s', Stage set r l P' s' → Q a s'.regs → Works set r l K O P' (f a) s' Q') :
    Works set r l K O P (x >>= f) s Q' := by
  refine Ensures.bind hx fun a s₁ ⟨q₁, hs₁, hrestores₁, hQ⟩ => ?_
  refine (hf a _ s₁ hs₁ hQ).mono fun b s₂ ⟨q₂, hs₂, hrestores₂, hQ'⟩ => ⟨q₂ ++ q₁, ?_, ?_, hQ'⟩
  · rwa [Code.fronted_fronted] at hs₂
  · rw [requests_append]
    exact hrestores₁.trans hrestores₂

theorem get {f : Allocation → Allocating β} (h : Works set r l K O P (f s) s Q') :
    Works set r l K O P (MonadState.get >>= f) s Q' := h

theorem mono {R : α → Registers → Prop} {x : Allocating α} (hx : Works set r l K O P x s Q)
    (h : ∀ a s', Q a s' → R a s') : Works set r l K O P x s R :=
  Ensures.mono hx fun a _ ⟨q, hs', hrestores, hQ⟩ => ⟨q, hs', hrestores, h a _ hQ⟩

/-- A computation that begins with an answer, if there is one. -/
theorem liftFault_bind {γ : Type} {y : Except Fault γ} {f : γ → Allocating β}
    (hf : ∀ a, y = .ok a → Works set r l K O P (f a) s Q') :
    Works set r l K O P (Allocation.liftFault y >>= f) s Q' := by
  cases y with
  | ok a => exact Ensures.pure_bind (hf a rfl)
  | error e => exact Ensures.bind (Q := fun _ _ => False) (.throw trivial) fun _ _ => False.elim

/-- A change of the tables that needs no code. -/
theorem update (hs : Stage set r l P s) {f : Registers → Registers}
    (hregs : (f s.regs).Represents set)
    (hrestores : Restores set K O s.regs (f s.regs) []) {Q : Unit → Registers → Prop}
    (h : Q () (f s.regs)) :
    Works set r l K O P (Allocation.update f) s Q :=
  .modify ⟨[], (Code.fronted_nil P .main).symm ▸ ⟨hregs, hs.code⟩, hrestores, h⟩

end Works

namespace Allocation

open Registers

variable {α : Type} {set : Setting} {r : CodePages} {l : List Nat} {K O : Reg → Prop}
  {P : Side → List Piece} {s : Allocation} {k i : Nat} {avoid : RegSet} {want : Reg}

/-! ### Reservations -/

/-- A value gets a reservation if it has none, and registers stay as they are. -/
theorem reserve_works (hs : Stage set r l P s) (ref : Ref) :
    Works set r l K O P (reserve ref) s fun i s' => ∃ k : Nat, ref = k ∧ s'.Has k i ∧
      (∀ x, s'.valueIn x = s.regs.valueIn x) ∧ ∀ {k' j}, s.regs.Owns k' j → s'.Owns k' j := by
  refine .get (.liftFault_bind fun e hentry => ?_)
  obtain ⟨k, rfl, hindex⟩ : ∃ k : Nat, ref = k ∧ s.regs.index[k]? = some e := by
    unfold Registers.entry at hentry
    split at hentry
    · cases hentry
    · next hneg =>
      obtain ⟨k, rfl⟩ := Int.eq_ofNat_of_zero_le (Int.not_lt.mp hneg)
      split at hentry
      · next e' he =>
        cases hentry
        exact ⟨k, rfl, he⟩
      · cases hentry
  have hsize : k < set.buffer.size := hs.regs.size ▸ (Array.getElem?_eq_some_iff.mp hindex).1
  cases e with
  | some i => exact .pure hs ⟨k, rfl, hindex, fun _ => rfl, id⟩
  | none =>
    have hnew : ∀ i, ¬ s.regs.Has k i := fun i hi => by
      rw [Registers.Has, hindex] at hi
      cases hi
    cases hfree : s.regs.free with
    | none => exact (ensures_error (take_full hfree)).mpr trivial
    | some i =>
      exact (ensures_ok (take_free hfree)).mpr ⟨[],
        (Code.fronted_nil P .main).symm ▸ ⟨hs.regs.add hsize hnew hfree, hs.code⟩,
        hs.regs.restores_add hsize hnew hfree, k, rfl,
        (Registers.add_has (hs.regs.size ▸ hsize)).mpr (.inl ⟨rfl, rfl⟩), fun _ => rfl,
        (hs.regs.add_owns hsize hnew hfree).mpr⟩

/-- A reserved value is put into a register that holds nothing. -/
theorem assign_works (hs : Stage set r l P s) (hi : s.regs.Has k i)
    (hnone : (s.regs.at? i).reg = Reg.none)
    (hwant : set.target.allocatable.contains want = true) :
    Works set r l K O P (assign set i want) s fun _ s' => s' = s.regs.assign i want ∧
      ∀ x, x.Valid → s'.valueIn x = if x = want then (k : Int) else s.regs.valueIn x := by
  have hvalid := RegSet.contains_valid hwant
  refine .get ?_
  dsimp only
  split
  · exact Ensures.bind (Q := fun _ _ => False) (.throw trivial) fun _ _ => False.elim
  · next hfree =>
    exact .update hs (hs.regs.assign hi hnone hwant (not_not.mp hfree))
      (hs.regs.restores_assign hi hvalid (not_not.mp hfree)) ⟨rfl,
        fun x hx => hs.regs.assign_valueIn hi hvalid hx⟩

/-- A value that can be spilled has a spill slot. -/
theorem ensureSlot_works (hs : Stage set r l P s) (hi : s.regs.Has k i)
    (hk : ¬ Immediate set.buffer k) :
    Works set r l K O P (ensureSlot set i) s fun j s' => Evicted s.regs s' ∧
      (s'.at? i).reg = (s.regs.at? i).reg ∧ (s'.at? i).slot = some j ∧
      (∀ x, s'.valueIn x = s.regs.valueIn x) ∧
      (∀ x, x ≠ i → (s'.at? x).slot = (s.regs.at? x).slot) ∧ ∀ {k' j}, s.regs.Owns k' j →
      s'.Owns k' j := by
  refine .get ?_
  dsimp only
  split
  · next j hj => exact .pure hs ⟨.refl _, rfl, hj, fun _ => rfl, fun _ _ => rfl, id⟩
  · next hnone =>
    obtain ⟨-, hevicted, hreg⟩ := hs.regs.toAgrees.takeSlot hi s.regs.freeSlot
    split
    · exact Ensures.bind (Q := fun _ _ => False) (.throw trivial) fun _ _ => False.elim
    · next hroom =>
      simp only [Bool.and_eq_true, decide_eq_true_eq, not_and, Int.not_le] at hroom
      refine .bind (Q := fun _ s' => s' = s.regs.takeSlot i s.regs.freeSlot)
        (.update hs (hs.regs.takeSlot hi hk hnone hroom)
        (hs.regs.restores_takeSlot hi hnone _) rfl) fun _ P' s' hs' heq => ?_
      rw [← heq] at hevicted hreg
      refine .pure hs' ⟨hevicted, hreg i, ?_, fun x => by rw [heq]; rfl,
        fun x hne => ?_, fun howns => ?_⟩
      · rw [heq, hs.regs.takeSlot_at? hi, if_pos rfl]
      · rw [heq, hs.regs.takeSlot_at? hi, if_neg hne]
      · rw [heq]
        exact (hs.regs.takeSlot_owns hi hnone _).mpr (.inl howns)

/-- A value that is written to its slot at an exit is found in a spill slot. -/
theorem slotFor_works (hs : Stage set r l P s) (hk : ¬ Immediate set.buffer k) :
    Works set r l K O P (slotFor set k) s fun j s' =>
    s'.Owns k j ∧ (∀ x, s'.valueIn x = s.regs.valueIn x) ∧
      ∀ {k' j}, s.regs.Owns k' j → s'.Owns k' j := by
  refine .bind (reserve_works hs k) fun i P' s' hs' ⟨k', hk', hi, hvalue, howns⟩ => ?_
  obtain rfl := Int.ofNat.inj hk'
  refine (ensureSlot_works hs' hi hk).mono fun j s'' ⟨hevicted, _, hslot, hsame, _, howns'⟩ => ?_
  exact ⟨⟨i, hevicted.has.mpr hi, hslot⟩, fun x => (hsame x).trans (hvalue x),
    fun h => howns' (howns h)⟩

/-! ### Evictions -/

section

variable (hr : r.Laid) (hpage : 1024 ≤ r.pageSize)
include hr hpage

/-- A request comes in front of the main code. -/
theorem emit_stage (hs : Stage set r l P s) (x : Instr) : Ensures Anyhow (emit set x) s fun _ s' =>
    s'.regs = s.regs ∧ ∃ q, requests q = [x] ∧ Stage set r l (Code.fronted P .main q) s' := by
  have hemit := (hs.code.emit hr hpage .main x).anyhow
  refine (coding_ensures (E := Anyhow) hemit).mono fun _ s' ⟨hregs, p, join,
    hrequest, hjoin, hcode⟩ => ?_
  refine ⟨hregs, p :: join, ?_, hregs ▸ hs.regs, hcode⟩
  rw [requests_cons, hrequest, hjoin]
  rfl

/-- A request and the change of the tables that it makes up for. -/
theorem emit_works (hs : Stage set r l P s) (x : Instr) {f : Registers → Registers}
    (hregs : (f s.regs).Represents set)
    (hrestores : Restores set K O s.regs (f s.regs) [x]) {Q : Unit → Registers → Prop}
    (h : Q () (f s.regs)) :
    Works set r l K O P (do emit set x; update f) s Q := by
  refine Ensures.bind (emit_stage hr hpage hs x) fun _ s₁ ⟨hsame, q, hrequests, hs₁⟩ =>
    .modify ⟨q, ⟨?_, hs₁.code⟩, ?_, ?_⟩
  · rwa [← hsame] at hregs
  · rw [hrequests]
    rwa [← hsame] at hrestores ⊢
  · rwa [← hsame] at h

variable (hp : set.Portable)
include hp

/-- A value is taken out of its register, and no other value gets a spill slot. -/
theorem evict_works (hs : Stage set r l P s) (hi : s.regs.Has k i)
    (hreg : (s.regs.at? i).reg ≠ Reg.none)
    (hkept : ¬ K (s.regs.at? i).reg) :
    Works set r l K O P (evict set k) s fun _ s' => Evicted s.regs s' ∧
      (∀ x, x.Valid → s'.valueIn x = if x = (s.regs.at? i).reg then Ref.none
        else s.regs.valueIn x) ∧
      ∀ x, x ≠ i → (s'.at? x).slot = (s.regs.at? x).slot := by
  -- the register is given up once there is code to restore it
  have hgiven : ∀ {s' : Registers}, s'.Represents set → Evicted s.regs s' →
    (s'.at? i).reg = (s.regs.at? i).reg →
      (∀ x, s'.valueIn x = s.regs.valueIn x) →
        (∀ x, x ≠ i → (s'.at? x).slot = (s.regs.at? x).slot) →
      (s'.unassign i).Represents set ∧ Evicted s.regs (s'.unassign i) ∧
        (∀ x, x.Valid → (s'.unassign i).valueIn x = if x = (s.regs.at? i).reg then Ref.none
          else s.regs.valueIn x) ∧
        ∀ x, x ≠ i → ((s'.unassign i).at? x).slot = (s.regs.at? x).slot := by
    intro s' hs' hevicted hsame hvalue hslots
    have hi' := hevicted.has.mpr hi
    have hreg' := hsame ▸ hreg
    refine ⟨hs'.unassign hi' hreg', hevicted.trans (hs'.toAgrees.unassign hi' hreg').2,
      fun x hx => ?_, fun x hne => ?_⟩
    · rw [hs'.unassign_valueIn (hs'.valueIn_eq hi' hreg').1 hx, hsame, hvalue]
    · rw [hs'.unassign_at? hi', if_neg hne, hslots x hne]
  refine .get (.liftFault_bind fun e hentry => ?_)
  obtain rfl : some i = e := Except.ok.inj ((hs.regs.entry_has hi).symm.trans hentry)
  refine .get ?_
  dsimp only
  split
  · next x hx =>
    obtain ⟨hregs, hQ⟩ := hgiven hs.regs (.refl _) rfl (fun _ => rfl) fun _ _ => rfl
    exact emit_works hr hpage hs _ hregs (hs.regs.restores_movImm hp hi hreg hkept hx rfl) hQ
  · next hnot =>
    have hstored : ¬ Immediate set.buffer k := by
      rintro ⟨x, hx, hop⟩
      obtain ⟨op, _⟩ := x
      obtain rfl : op = .imm := hop
      exact hnot _ _ _ _ _ _ _ _ _ hx
    refine .bind (ensureSlot_works hs hi hstored) fun j P' s' hs' ⟨hevicted, hsame, hslot,
      hvalue, hslots, _⟩ => ?_
    obtain ⟨hregs, hQ⟩ := hgiven hs'.regs hevicted hsame hvalue hslots
    have hrestores :=
      hs'.regs.restores_load (K := K) (O := O) hp (hevicted.has.mpr hi) (hsame ▸ hreg)
      (hsame ▸ hkept) hslot
    rw [hsame] at hrestores
    exact emit_works hr hpage hs' _ hregs hrestores hQ

/-- A register that need not be avoided is had, and all others keep what they hold. -/
theorem freeReg_works (hs : Stage set r l P s) (avoid : RegSet)
    (hkept : ∀ x, K x → avoid.contains x = true ∨ s.regs.valueIn x = Ref.none) :
    Works set r l K O P (freeReg set avoid) s fun want s' => Evicted s.regs s' ∧
      set.target.allocatable.contains want = true ∧ avoid.contains want = false ∧
      ∀ x, x.Valid → s'.valueIn x = if x = want then Ref.none else s.regs.valueIn x := by
  refine .get ?_
  extract_lets regs free
  cases hfree : free.isEmpty with
  | false =>
    have hmem := RegSet.first_contains hfree
    unfold free at hmem
    rw [RegSet.contains_diff, RegSet.contains_inter] at hmem
    obtain ⟨⟨havail, halloc⟩, hout⟩ := hmem
    refine .pure hs ⟨.refl _, halloc, hout, fun x _ => ?_⟩
    split
    · next heq => exact heq ▸ (hs.regs.avail halloc).mp havail
    · rfl
  | true =>
    simp only [Bool.not_true, Bool.false_eq_true, if_false]
    by_cases hheld : ∃ x, (set.target.allocatable.diff avoid).contains x = true ∧
      s.regs.valueIn x ≠ Ref.none
    · obtain ⟨x, hx, hheld⟩ := hheld
      obtain ⟨want, hwant, hne, hvictim⟩ := Registers.victim?_some hx hheld
      obtain ⟨halloc, hout⟩ := RegSet.contains_diff.mp hwant
      have hvalid := RegSet.contains_valid hwant
      obtain ⟨k, i, hi, hk, rfl⟩ := hs.regs.held hvalid hne
      simp only [regs, hvictim, hk]
      refine .liftFault_bind fun want hregOf => ?_
      obtain rfl := Except.ok.inj ((hs.regs.regOf_has hi).symm.trans hregOf)
      have hspared : ¬ K (s.regs.at? i).reg := fun hin => (hkept _ hin).elim
        (fun havoid => by rw [hout] at havoid; cases havoid) hne
      exact .bind (evict_works hr hpage hp hs hi hvalid.ne_none hspared)
          fun _ _ s' hs' ⟨hevicted, hvalue, _⟩ =>
        .pure hs' ⟨hevicted, halloc, hout, hvalue⟩
    · have hempty : ∀ x, (set.target.allocatable.diff avoid).contains x = true →
          s.regs.valueIn x = Ref.none :=
        fun x hx => Classical.byContradiction fun hne => hheld ⟨x, hx, hne⟩
      simp only [regs, Registers.victim?_none hempty]
      exact Ensures.throw trivial

/-! ### Registers for values -/

/-- A reserved value without a register is put into one. -/
theorem place_works (hs : Stage set r l P s) (hi : s.regs.Has k i)
    (hnone : (s.regs.at? i).reg = Reg.none)
    (hkept : ∀ x, K x → avoid.contains x = true ∨ s.regs.valueIn x = Ref.none) :
    Works set r l K O P (do let want ← freeReg set avoid; assign set i want; return want) s
    fun want s' =>
      s'.Has k i ∧ (s'.at? i).reg = want ∧ set.target.allocatable.contains want = true ∧
      avoid.contains want = false ∧
      ∀ x, x.Valid → s'.valueIn x = if x = want then (k : Int) else s.regs.valueIn x := by
  refine .bind (freeReg_works hr hpage hp hs avoid hkept) fun want P₁ s₁ hs₁ ⟨hevicted,
    halloc, hout, hvalue⟩ => ?_
  have hi₁ := hevicted.has.mpr hi
  refine .bind (assign_works hs₁ hi₁ (hevicted.none hnone) halloc) fun _ P₂ s₂ hs₂ ⟨heq, hvalue'⟩ =>
    .pure hs₂ ?_
  refine ⟨heq ▸ hi₁, by rw [heq, hs₁.regs.assign_at? hi₁, if_pos rfl], halloc, hout, fun x hx => ?_⟩
  rw [hvalue' x hx, hvalue x hx]
  split <;> rfl

/-- A value is in some register, outside `avoid` unless it was there already, and all others keep
what they hold. -/
theorem regFor_works (hs : Stage set r l P s) (ref : Ref)
    (hkept : ∀ x, K x → avoid.contains x = true ∨ s.regs.valueIn x = Ref.none) :
    Works set r l K O P (regFor set ref avoid) s fun want s' =>
    set.target.allocatable.contains want = true ∧
      0 ≤ ref ∧ (avoid.contains want = true → s.regs.valueIn want = ref) ∧
      ∀ x, x.Valid → s'.valueIn x = if x = want then ref else s.regs.valueIn x := by
  refine .bind (reserve_works hs ref) fun i P₁ s₁ hs₁ ⟨k, hk, hi, hvalue, _⟩ => .get ?_
  subst hk
  dsimp only
  split
  · next hreg =>
    have hin := (hs₁.regs.valueIn_eq hi hreg).2
    refine .pure hs₁ ⟨(hs₁.regs.placed hi hreg).1, Int.natCast_nonneg k,
      fun _ => (hvalue _).symm.trans hin, fun x _ => ?_⟩
    split
    · next heq => exact heq ▸ hin
    · exact hvalue x
  · next hnone =>
    refine (place_works hr hpage hp hs₁ hi (not_not.mp hnone)
      (fun x hx => hvalue x ▸ hkept x hx)).mono
      fun want s' ⟨_, _, halloc, hout, hvalue'⟩ =>
        ⟨halloc, Int.natCast_nonneg k, fun hin => ?_, fun x hx => ?_⟩
    · rw [hout] at hin
      cases hin
    · rw [hvalue' x hx, hvalue]

/-- A value is put into a register that held nothing, and all others keep what they hold or hold
nothing any more. -/
theorem specificRegFor_works (hs : Stage set r l P s) (ref : Ref)
    (hwant : set.target.allocatable.contains want = true)
    (hfree : s.regs.valueIn want = Ref.none) (hkept : ∀ x, K x → s.regs.valueIn x = Ref.none)
    (hout : ¬ O want) :
    Works set r l K O P (specificRegFor set ref want) s fun _ s' =>
    0 ≤ ref ∧ s'.valueIn want = ref ∧
      ∀ x, x.Valid → x ≠ want → s'.valueIn x = s.regs.valueIn x ∨ s'.valueIn x = Ref.none := by
  have hvalid := RegSet.contains_valid hwant
  refine .bind (reserve_works hs ref) fun i P₁ s₁ hs₁ ⟨k, hk, hi, hvalue, _⟩ => .get ?_
  subst hk
  have hfree₁ : s₁.regs.valueIn want = Ref.none := (hvalue want).trans hfree
  split
  · next heq =>
    -- it would be in the register already
    have hreg : (s₁.regs.at? i).reg = want := beq_iff_eq.mp heq
    have hin := (hs₁.regs.valueIn_eq hi (hreg ▸ hvalid.ne_none)).2
    rw [hreg, hfree₁] at hin
    exact absurd hin.symm (natCast_ne_none k)
  · refine .get ?_
    extract_lets other placed cleared
    rw [if_neg (not_not_intro hfree₁)]
    refine .get ?_
    dsimp only
    split
    · next hreg =>
      have hagree := hs₁.regs.valueIn_eq hi hreg
      have hspared : ¬ K (s₁.regs.at? i).reg := by
        intro hin
        have hnone := hkept _ hin
        rw [← hvalue, hagree.2] at hnone
        exact natCast_ne_none k hnone
      have hrestores := hs₁.regs.restores_mov hp hi hreg hspared hwant hfree₁ hout
      have hmoved := hs₁.regs.unassign hi hreg
      have hat : ((s₁.regs.unassign i).at? i).reg = Reg.none := by
        rw [hs₁.regs.unassign_at? hi, if_pos rfl]
      have hvalue₂ : ∀ x, x.Valid → (s₁.regs.unassign i).valueIn x =
          if x = (s₁.regs.at? i).reg then Ref.none else s₁.regs.valueIn x :=
            fun x hx => hs₁.regs.unassign_valueIn hagree.1 hx
      have hfree₂ : (s₁.regs.unassign i).valueIn want = Ref.none := by
        rw [hvalue₂ want hvalid, hfree₁, ite_self]
      have hi₂ : (s₁.regs.unassign i).Has k i := hi
      refine Ensures.bind (emit_stage hr hpage hs₁ _) fun _ s₂ ⟨hsame, q, hrequests, hs₂⟩ =>
        Ensures.modify_bind ?_
      unfold placed assign
      refine Ensures.get ?_
      dsimp only
      rw [hsame, if_neg (not_not_intro hfree₂)]
      refine .modify ⟨q, ⟨hmoved.assign hi₂ hat hwant hfree₂, hs₂.code⟩, hrequests ▸ hrestores,
        Int.natCast_nonneg k, ?_,
        fun x hx hne => ?_⟩
      · rw [hmoved.assign_valueIn hi₂ hvalid hvalid, if_pos rfl]
      · dsimp only
        rw [hmoved.assign_valueIn hi₂ hvalid hx, if_neg hne, hvalue₂ x hx]
        split
        · exact .inr rfl
        · exact .inl (hvalue x)
    · next hnone =>
      refine (assign_works hs₁ hi (not_not.mp hnone) hwant).mono fun _ s' ⟨_, hvalue'⟩ =>
        ⟨Int.natCast_nonneg k, ?_, fun x hx hne => .inl ?_⟩
      · rw [hvalue' want hvalid, if_pos rfl]
      · rw [hvalue' x hx, if_neg hne, hvalue]

/-- The registers that a call destroys hold nothing any more, and values without a register keep
their slots. -/
theorem evictCallerSaved_works (hs : Stage set r l P s)
    (hkept : ∀ x, K x → x.Valid ∧ s.regs.valueIn x = Ref.none) :
    Works set r l K O P (evictCallerSaved set) s fun _ s' => Evicted s.regs s' ∧
      (∀ x, set.target.callerSaved.contains x = true → set.target.allocatable.contains x = true →
        s'.valueIn x = Ref.none) ∧
      (∀ x, x.Valid → s'.valueIn x = s.regs.valueIn x ∨ s'.valueIn x = Ref.none) ∧
      ∀ x, (s.regs.at? x).reg = Reg.none → (s'.at? x).slot = (s.regs.at? x).slot := by
  have hloop : ∀ (regs : List Reg) {P : Side → List Piece} {s : Allocation}, Stage set r l P s →
    (∀ x ∈ regs, x.Valid) →
      (∀ x, K x → x.Valid ∧ s.regs.valueIn x = Ref.none) →
          Works set r l K O P (regs.forM fun x => do
        let ref := (← MonadState.get).regs.valueIn x
        if ref ≠ Ref.none then evict set ref) s fun _ s' =>
          Evicted s.regs s' ∧ (∀ x ∈ regs, s'.valueIn x = Ref.none) ∧
          (∀ x, x.Valid → s'.valueIn x = s.regs.valueIn x ∨ s'.valueIn x = Ref.none) ∧
          ∀ x, (s.regs.at? x).reg = Reg.none → (s'.at? x).slot = (s.regs.at? x).slot := by
    intro regs
    induction regs with
    | nil => exact fun hs _ _ => .pure hs ⟨.refl _, nofun, fun _ _ => .inl rfl, fun _ _ => rfl⟩
    | cons x regs ih =>
      intro P s hs hvalid hkept
      have hx := hvalid x List.mem_cons_self
      have hstep : Works set r l K O P (do
          let ref := (← MonadState.get).regs.valueIn x
          if ref ≠ Ref.none then evict set ref : Allocating Unit) s fun _ s' => Evicted s.regs s' ∧
            s'.valueIn x = Ref.none ∧
              (∀ y, y.Valid → s'.valueIn y = s.regs.valueIn y ∨ s'.valueIn y = Ref.none) ∧
            ∀ x, (s.regs.at? x).reg = Reg.none → (s'.at? x).slot = (s.regs.at? x).slot := by
        refine .get ?_
        dsimp only
        split
        · next hheld =>
          obtain ⟨k, i, hi, hvalue, rfl⟩ := hs.regs.held hx hheld
          rw [hvalue]
          refine (evict_works hr hpage hp hs hi hx.ne_none fun hin => hheld (hkept _ hin).2).mono
            fun _ s' ⟨hevicted, hvalue', hslots⟩ =>
              ⟨hevicted, by rw [hvalue' _ hx, if_pos rfl], fun y hy => ?_, fun y hy => ?_⟩
          · rw [hvalue' y hy]
            split
            · exact .inr rfl
            · exact .inl rfl
          · exact hslots y fun heq => hx.ne_none (heq ▸ hy)
        · next hfree =>
            exact .pure hs ⟨.refl _, not_not.mp hfree, fun _ _ => .inl rfl, fun _ _ => rfl⟩
      refine .bind hstep fun _ P₁ s₁ hs₁ ⟨hevicted₁, hgone, hvalue₁, hslots₁⟩ => ?_
      refine (ih hs₁ (fun y hy => hvalid y (List.mem_cons_of_mem x hy)) fun y hy => ?_).mono
        fun _ s₂ ⟨hevicted₂, hgone₂, hvalue₂, hslots₂⟩ =>
          ⟨hevicted₁.trans hevicted₂, fun y hy => ?_, fun y hy => ?_, fun y hy => ?_⟩
      · obtain ⟨hvalid, hnone⟩ := hkept y hy
        exact ⟨hvalid, (hvalue₁ y hvalid).elim (fun heq => heq.trans hnone) id⟩
      · rcases List.mem_cons.mp hy with rfl | hy
        · exact (hvalue₂ y hx).elim (fun heq => heq.trans hgone) id
        · exact hgone₂ y hy
      · exact (hvalue₂ y hy).elim (fun heq => heq ▸ hvalue₁ y hy) .inr
      · rw [hslots₂ y (hevicted₁.none hy), hslots₁ y hy]
  refine (hloop _ hs (fun x hx => RegSet.contains_valid (RegSet.mem_toList.mp hx)) hkept).mono
    fun _ s' ⟨hevicted, hgone, hvalue, hslots⟩ =>
      ⟨hevicted, fun x hsaved halloc => hgone x ?_, hvalue, hslots⟩
  exact RegSet.mem_toList.mpr (RegSet.contains_inter.mpr ⟨hsaved, halloc⟩)

/-! ### Results -/

/-- The register in which a value is made; the value is not live before, and its register
holds nothing. -/
theorem resultReg_delivers (hs : Stage set r l P s) (k : Nat) (avoid : RegSet) :
    Ensures Anyhow (resultReg set k avoid) s fun want s' =>
    ∃ q, Stage set r l (Code.fronted P .main q) s' ∧
      Delivers set s.regs s'.regs k want (requests q) ∧
      set.target.allocatable.contains want = true ∧
      s'.regs.valueIn want = Ref.none ∧ ∀ i, ¬ s'.regs.Has k i := by
  refine Ensures.bind (reserve_works (K := fun _ => False) (O := fun _ => False) hs k)
    fun i s₁ ⟨q₁, hs₁, hrestores₁, k', hk', hi, hvalue, _⟩ => .get ?_
  obtain rfl := Int.ofNat.inj hk'
  extract_lets reg stored
  -- what is left to do once the value is in a register
  have hstored : ∀ {P₂ : Side → List Piece} {s₂ : Allocation} {want : Reg},
    Stage set r l P₂ s₂ → s₂.regs.Has k i →
      (s₂.regs.at? i).reg = want → set.target.allocatable.contains want = true →
      Ensures Anyhow (stored () want) s₂ fun want' s' =>
        want' = want ∧ ∃ q, Stage set r l (Code.fronted P₂ .main q) s' ∧
        Delivers set s₂.regs s'.regs k want (requests q) ∧ s'.regs.valueIn want = Ref.none ∧
        ∀ i, ¬ s'.regs.Has k i := by
    intro P₂ s₂ want hs₂ hi₂ hreg hwant
    have hvalid := RegSet.contains_valid hwant
    have hdelivers := hs₂.regs.delivers hi₂ hp hreg hwant
    have hnone : (s₂.regs.drop k i).valueIn want = Ref.none := by
      show (s₂.regs.vacate i).valueIn want = _
      rw [Registers.vacate, if_neg (by rw [hreg, beq_iff_eq]; exact hvalid.ne_none),
        hs₂.regs.unassign_valueIn (hreg ▸ hvalid) hvalid, if_pos hreg.symm]
    have hgone : ∀ j, ¬ (s₂.regs.drop k i).Has k j :=
      fun j hj => ((hs₂.regs.drop_has hi₂).mp hj).1 rfl
    -- the value is given up
    have hrelease : ∀ {P₃ : Side → List Piece} {s₃ : Allocation}, Stage set r l P₃ s₃ →
      s₃.regs = s₂.regs →
        Ensures Anyhow (do release k; return want : Allocating Reg) s₃ fun want' s' =>
          want' = want ∧ Stage set r l P₃ s' ∧ s'.regs = s₂.regs.drop k i := by
      intro P₃ s₃ hs₃ hsame
      have hentry := hs₃.regs.entry_has (hsame ▸ hi₂)
      refine .bind (Q := fun _ s' => Stage set r l P₃ s' ∧ s'.regs = s₂.regs.drop k i)
        (.get (liftFault_bind hentry (.modify ⟨⟨?_, hs₃.code⟩, by rw [hsame]⟩))) fun _ s' h =>
          .pure ⟨rfl, h⟩
      exact hs₃.regs.drop (hsame ▸ hi₂)
    refine .get ?_
    extract_lets ended
    split
    · next j hj =>
      rw [hj] at hdelivers
      refine .bind (emit_stage hr hpage hs₂ _) fun _ s₃ ⟨hsame, q, hrequests, hs₃⟩ => ?_
      refine (hrelease hs₃ hsame).mono fun want' s' ⟨heq, hs', hregs⟩ => ⟨heq, q, hs', ?_⟩
      rw [hrequests, hregs]
      exact ⟨hdelivers, hnone, hgone⟩
    · next hnoslot =>
      rw [Option.eq_none_iff_forall_ne_some.mpr hnoslot] at hdelivers
      refine (hrelease hs₂ rfl).mono fun want' s' ⟨heq, hs', hregs⟩ =>
        ⟨heq, [], (Code.fronted_nil P₂ .main).symm ▸ hs', ?_⟩
      rw [hregs]
      exact ⟨hdelivers, hnone, hgone⟩
  split
  · next hnone =>
    refine Ensures.bind
      (freeReg_works (K := fun _ => False) (O := fun _ => False) hr hpage hp hs₁ avoid nofun)
      fun want s₂ ⟨q₂, hs₂, hrestores₂, hevicted, hwant, _, _⟩ => ?_
    have hi₂ := hevicted.has.mpr hi
    refine Ensures.bind (assign_works (K := fun _ => False) (O := fun _ => False) hs₂ hi₂
      (hevicted.none (beq_iff_eq.mp hnone)) hwant) fun _ s₃ ⟨q₃, hs₃, hrestores₃, heq, _⟩ => ?_
    have hreg : (s₃.regs.at? i).reg = want := by rw [heq, hs₂.regs.assign_at? hi₂, if_pos rfl]
    refine (hstored hs₃ (heq ▸ hi₂) hreg hwant).mono fun want' s' ⟨hsame, q, hs',
      hdelivers, hrest⟩ => ?_
    rw [hsame]
    refine ⟨q ++ (q₃ ++ (q₂ ++ q₁)), ?_, ?_, hwant, hrest⟩
    · simpa only [Code.fronted_fronted, List.append_assoc] using hs'
    · rw [requests_append, requests_append, requests_append]
      exact hdelivers.after ((hrestores₁.trans hrestores₂).trans hrestores₃)
  · next hheld =>
    have hreg : (s₁.regs.at? i).reg ≠ Reg.none := fun heq => hheld (beq_iff_eq.mpr heq)
    have hwant := (hs₁.regs.placed hi hreg).1
    refine (hstored hs₁ hi rfl hwant).mono fun want s' ⟨heq, q, hs', hdelivers, hrest⟩ => ?_
    rw [heq]
    refine ⟨q ++ q₁, ?_, ?_, hwant, hrest⟩
    · rwa [Code.fronted_fronted] at hs'
    · rw [requests_append]
      exact hdelivers.after hrestores₁

end

end Allocation

end LoopTracer.Compile
