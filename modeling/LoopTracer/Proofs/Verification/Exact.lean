import Mathlib.Order.Bounds.Basic
import LoopTracer.Proofs.Verification.Depths

/-! The depth analysis is exact.

An `Assignment` gives every instruction that control can come to a depth of its own, as a
programmer would write it beside the code. The analysis accepts sound code exactly when there is
one, and then it is what the analysis reports (`check_exact`).

None of this hangs on which pending place is looked at first. `Visits` are visits in any order
at all: each of them uses up room, so none goes on for ever; a run without errors that has
nothing left to look at is consistent, so it yields an assignment; and where there is an
assignment every run keeps to it (`Following`), so no order can find an error. -/
namespace LoopTracer.Bytecode.StackDepth

/-- Control can come to an offset from the first instruction. -/
inductive Reachable (c : Chunk) : Nat → Prop
  | first : Reachable c 0
  | next {i j : Nat} {op : Opcode} :
      Reachable c i → c.opcode? i = some op → (j : Int) ∈ flow c op i →
      Reachable c j

/-- Depths for the instructions that control can come to: each takes no more than there is, stays
within the limit, and hands what it leaves on to wherever control goes next. -/
structure Assignment (c : Chunk) (limit : Nat) (d : Nat → Nat) : Prop where
  first : d 0 = 0
  pops : ∀ {i op}, Reachable c i → c.opcode? i = some op → (effectOf c op i).pops ≤ d i
  bounded : ∀ {i op}, Reachable c i → c.opcode? i = some op → after c op i (d i) ≤ limit
  flows : ∀ {i op}, Reachable c i → c.opcode? i = some op → ∀ j : Nat, (j : Int) ∈ flow c op i →
    d j = after c op i (d i)

/-- A result that reports an assignment: its depths where control can come to, no depth anywhere
else, and the greatest depth that an instruction leaves. -/
structure Reports (c : Chunk) (d : Nat → Nat) (r : Result) : Prop where
  size : r.depths.size = c.size
  reached : ∀ {i}, Reachable c i → Starts c i ∧ r.depths[i]? = some (some (d i))
  unreached : ∀ {i}, i < c.size → ¬ Reachable c i → r.depths[i]? = some none
  greatest : IsGreatest {m | ∃ i op, Reachable c i ∧ c.opcode? i = some op ∧
    m = after c op i (d i)} r.maxDepth

/-- A number of visits, each of any place that is pending at the time. -/
inductive Visits (c : Chunk) (limit : Nat) (s : State) : Nat → State → Prop
  | still : Visits c limit s 0 s
  | more {n : Nat} {s₁ s₂ : State} {place : Int} {depth : Nat} {rest : List (Int × Nat)} :
      Visits c limit s n s₁ → s₁.pending.Perm ((place, depth) :: rest) →
      visit c limit { s₁ with pending := rest } place depth = .ok s₂ → Visits c limit s (n + 1) s₂

variable {f : Function} {c : Chunk} {limit n i : Nat} {op : Opcode} {d : Nat → Nat} {s s' : State}

/-- The depths are determined by the flow of control. -/
theorem Assignment.unique {d' : Nat → Nat} (h : Assignment c limit d) (h' : Assignment c limit d')
    (hi : Reachable c i) : d i = d' i := by
  induction hi with
  | first => rw [h.first, h'.first]
  | next hi hop hj ih => rw [h.flows hi hop _ hj, h'.flows hi hop _ hj, ih]

theorem Reachable.starts (h : Sound f c) (hi : Reachable c i) : Starts c i := by
  induction hi with
  | first => exact h.starts_zero
  | next _ hop hj ih =>
    obtain ⟨op, hw⟩ := h.whole ih
    obtain rfl := Option.some.inj (hw.opcode.symm.trans hop)
    obtain ⟨j, hplace, hj⟩ := h.flow_starts ih hw hj
    rwa [Int.ofNat_inj.mp hplace]

/-! ### One visit -/

/-- The analysis keeps to an assignment. -/
structure Following (c : Chunk) (d : Nat → Nat) (s : State) : Prop where
  clean : s.errors = #[]
  known : ∀ {i e}, s.depth? i = some e → Reachable c i ∧ e = d i
  pending : ∀ {i : Nat} {e}, ((i : Int), e) ∈ s.pending → Reachable c i ∧ e = d i
  greatest : s.maxDepth = 0 ∨
    ∃ i op, Reachable c i ∧ c.opcode? i = some op ∧ s.maxDepth = after c op i (d i)

/-- A place that an assignment knows is never refused. -/
theorem Visited.following (ha : Assignment c limit d) (hi : Reachable c i)
    (hop : c.opcode? i = some op)
    (hs : Following c d s) (hv : Visited c limit op i (d i) s s') : Following c d s' := by
  cases hv with
  | again _ => exact hs
  | entered hd _ _ =>
    refine ⟨hs.clean, fun {j e} hj => ?_, fun {j e} hj => ?_, ?_⟩
    · rw [State.depth?_enter hd] at hj
      split at hj
      · next hij => exact ⟨hij ▸ hi, by rw [← hij]; exact (Option.some.inj hj).symm⟩
      · exact hs.known hj
    · rcases List.mem_append.mp hj with hj | hj
      · obtain ⟨place, hplace, heq⟩ := List.mem_map.mp hj
        obtain ⟨rfl, rfl⟩ := Prod.mk.inj heq
        exact ⟨.next hi hop hplace, (ha.flows hi hop j hplace).symm⟩
      · exact hs.pending hj
    · rcases Nat.le_total (after c op i (d i)) s.maxDepth with hle | hle
      · rw [show (s.enter c op i (d i)).maxDepth = s.maxDepth from Nat.max_eq_left hle]
        exact hs.greatest
      · exact .inr ⟨i, op, hi, hop, Nat.max_eq_right hle⟩
  | refused _ _ _ _ hother hnew =>
    have hunknown : s.depth? i = none := by
      cases hk : s.depth? i with
      | none => rfl
      | some e => exact absurd (hk.trans (congrArg some (hs.known hk).2)) hother
    have hpops := ha.pops hi hop
    have hbounded := ha.bounded hi hop
    rcases hnew hunknown with hless | hmore <;> omega

/-! ### Any number of visits -/

/-- The order of the pending places means nothing to what is known. -/
theorem Consistent.perm {pending : List (Int × Nat)} (h : Consistent c limit s)
    (hp : s.pending.Perm pending) : Consistent c limit { s with pending := pending } where
  highest := h.highest
  first := h.first.imp id hp.mem_iff.mp
  starts := h.starts
  pops := h.pops
  bounded := h.bounded
  greatest := h.greatest
  flows hk ho j hj := (h.flows hk ho j hj).imp id hp.mem_iff.mp

/-- One more visit of sound code: it succeeds, at an instruction that was pending. -/
theorem visit_pending (limit : Nat) (h : Sound f c) (hs : Inside c s) {place : Int} {depth : Nat}
    {rest : List (Int × Nat)}
    (hp : s.pending.Perm ((place, depth) :: rest)) :
    ∃ (j : Nat) (op : Opcode) (s' : State), place = j ∧ Starts c j ∧ Whole f c j op ∧
      Inside c { s with pending := rest } ∧
      visit c limit { s with pending := rest } place depth = .ok s' ∧
      Visited c limit op j depth { s with pending := rest } s' := by
  obtain ⟨j, hplace, hj⟩ := hs.pending (place, depth) (hp.mem_iff.mpr List.mem_cons_self)
  obtain rfl : place = j := hplace
  obtain ⟨op, hw⟩ := h.whole hj
  have hrest : Inside c { s with pending := rest } :=
    ⟨hs.size, fun q hq => hs.pending q (hp.mem_iff.mpr (List.mem_cons_of_mem _ hq))⟩
  obtain ⟨s', hvisit, hv⟩ : ∃ s', visit c limit { s with pending := rest } j depth = .ok s' ∧
      Visited c limit op j depth { s with pending := rest } s' := visit_visited hw hrest
  exact ⟨j, op, s', rfl, hj, hw, hrest, hvisit, hv⟩

/-- What visits in any order keep to: they stay inside the code, each uses up room, and as long
as there are no errors what is known is consistent. -/
structure Going (c : Chunk) (limit n : Nat) (s s' : State) : Prop where
  inside : Inside c s'
  room : s'.room + n ≤ s.room
  consistent : s'.errors = #[] → Consistent c limit s'

theorem Visits.going (h : Sound f c) (hs : Inside c s) (hc : Consistent c limit s)
    (hv : Visits c limit s n s') : Going c limit n s s' := by
  induction hv with
  | still => exact ⟨hs, Nat.le_refl _, fun _ => hc⟩
  | @more n s₁ s₂ place depth rest _ hp hvisit ih =>
    obtain ⟨j, op, s', rfl, hj, hw, hrest, hvisit', hv⟩ := visit_pending limit h ih.inside hp
    obtain rfl : s' = s₂ := Except.ok.inj (hvisit'.symm.trans hvisit)
    refine ⟨hv.inside h hj hw hrest, ?_, fun he => ?_⟩
    · have hless : s'.room ≤ 2 * s₁.depths.count none + rest.length := hv.room_le
      have hroom := ih.room
      rw [State.room, hp.length_eq, List.length_cons] at hroom
      omega
    · have hold := (ih.consistent (hv.clean he)).perm hp
      exact Visited.consistent hj hw.opcode hold hv he

theorem Visits.following (h : Sound f c) (ha : Assignment c limit d) (hs : Inside c s)
    (hc : Consistent c limit s) (hf : Following c d s)
    (hv : Visits c limit s n s') : Following c d s' := by
  induction hv with
  | still => exact hf
  | @more n s₁ s₂ place depth rest hv hp hvisit ih =>
    have hgoing := hv.going h hs hc
    obtain ⟨j, op, s', rfl, -, hw, -, hvisit', hv⟩ := visit_pending limit h hgoing.inside hp
    obtain rfl : s' = s₂ := Except.ok.inj (hvisit'.symm.trans hvisit)
    obtain ⟨hj, rfl⟩ := ih.pending (hp.mem_iff.mpr List.mem_cons_self)
    have hrest : Following c d { s₁ with pending := rest } :=
      ⟨ih.clean, ih.known, fun hq => ih.pending (hp.mem_iff.mpr (List.mem_cons_of_mem _ hq)),
        ih.greatest⟩
    exact hv.following ha hj hw.opcode hrest

/-- The analysis visits the pending places until none is left. -/
theorem explore_visits (limit : Nat) (h : Sound f c) (fuel : Nat) (s₀ : State) (hs : Inside c s)
    (hroom : s.room ≤ fuel)
    (hbefore : Visits c limit s₀ n s) :
    ∃ m s', explore c limit fuel s = .ok s' ∧ Visits c limit s₀ m s' ∧ s'.pending = [] := by
  induction fuel generalizing s n with
  | zero =>
    refine ⟨n, s, rfl, hbefore, List.eq_nil_of_length_eq_zero ?_⟩
    unfold State.room at hroom
    omega
  | succ fuel ih =>
    cases hp : s.pending with
    | nil => exact ⟨n, s, by simp only [explore, hp], hbefore, hp⟩
    | cons p rest =>
      obtain ⟨place, depth⟩ := p
      have hperm : s.pending.Perm ((place, depth) :: rest) := .of_eq hp
      obtain ⟨j, op, s₁, rfl, hj, hw, hrest, hvisit, hv⟩ := visit_pending limit h hs hperm
      have hless : s₁.room ≤ 2 * s.depths.count none + rest.length := hv.room_le
      rw [State.room, hp, List.length_cons] at hroom
      obtain ⟨m, s', hexplore, hvisits, hnil⟩ :=
        ih (hv.inside h hj hw hrest) (by omega) (.more hbefore hperm hvisit)
      refine ⟨m, s', ?_, hvisits, hnil⟩
      simp only [explore, hp]
      rw [hvisit]
      exact hexplore

/-! ### From the first instruction -/

theorem State.start_following (ha : Assignment c limit d) : Following c d (.start c) := by
  refine ⟨rfl, fun {i e} hi => ?_, fun {i e} hi => ?_, .inl rfl⟩
  · rw [State.start_depth?] at hi
    cases hi
  · obtain ⟨hzero, rfl⟩ := Prod.mk.inj (List.mem_singleton.mp hi)
    obtain rfl : i = 0 := by omega
    exact ⟨.first, ha.first.symm⟩

/-- Consistent depths with nothing pending are known wherever control can come to. -/
theorem Consistent.known (hc : Consistent c limit s) (hnil : s.pending = [])
    (hi : Reachable c i) : ∃ e, s.depth? i = some e := by
  induction hi with
  | first => exact ⟨0, hc.first.resolve_right (by simp [hnil])⟩
  | next _ hop hj ih =>
    obtain ⟨e, he⟩ := ih
    exact ⟨_, (hc.flows he hop _ hj).resolve_right (by simp [hnil])⟩

/-- What a run without errors found out is an assignment. -/
theorem Consistent.assignment (hc : Consistent c limit s) (hnil : s.pending = []) :
    Assignment c limit fun i => (s.depth? i).getD 0 := by
  have hknown : ∀ {i}, Reachable c i → s.depth? i = some ((s.depth? i).getD 0) := by
    intro i hi
    obtain ⟨e, he⟩ := hc.known hnil hi
    rw [he, Option.getD_some]
  refine ⟨?_, fun hi => hc.pops (hknown hi), fun hi => hc.bounded (hknown hi),
    fun hi hop j hj => ?_⟩
  · rw [hc.first.resolve_right (by simp [hnil]), Option.getD_some]
  · rw [(hc.flows (hknown hi) hop j hj).resolve_right (by simp [hnil]), Option.getD_some]

/-- Whatever the order, a run that has nothing left to look at has found no error exactly when
there is an assignment. -/
theorem Visits.verdict (h : Sound f c) (hv : Visits c limit (.start c) n s)
    (hnil : s.pending = []) :
    s.errors = #[] ↔ ∃ d, Assignment c limit d := by
  have hinside := State.start_inside h
  have hconsistent := State.start_consistent c limit
  constructor
  · intro he
    exact ⟨_, ((hv.going h hinside hconsistent).consistent he).assignment hnil⟩
  · rintro ⟨d, ha⟩
    exact (hv.following h ha hinside hconsistent (State.start_following ha)).clean

/-- And then what it has found is that assignment. -/
theorem Visits.reports (h : Sound f c) (hv : Visits c limit (.start c) n s) (hnil : s.pending = [])
    (ha : Assignment c limit d) : Reports c d ⟨s.maxDepth, s.depths, s.errors⟩ := by
  have hgoing := hv.going h (State.start_inside h) (State.start_consistent c limit)
  have hfollowing :=
    hv.following h ha (State.start_inside h) (State.start_consistent c limit)
      (State.start_following ha)
  have hc := hgoing.consistent hfollowing.clean
  have hreached : ∀ {i}, Reachable c i → s.depth? i = some (d i) := by
    intro i hi
    obtain ⟨e, he⟩ := hc.known hnil hi
    rw [he, (hfollowing.known he).2]
  refine ⟨hgoing.inside.size, fun {i} hi => ⟨hi.starts h, ?_⟩, fun {i} hi hnot => ?_, ?_, ?_⟩
  · exact Option.join_eq_some_iff.mp (hreached hi)
  · obtain ⟨e, he⟩ : ∃ e, s.depths[i]? = some e :=
      ⟨_, getElem?_pos s.depths i (hgoing.inside.size ▸ hi)⟩
    cases e with
    | none => exact he
    | some e =>
      exact absurd
        (hfollowing.known (show s.depth? i = some e by rw [State.depth?, he]; rfl)).1 hnot
  · rcases hfollowing.greatest with hzero | hattained
    · -- Even the first instruction leaves no less than the greatest depth, which is zero.
      obtain ⟨op, hw⟩ := h.whole h.starts_zero
      refine ⟨0, op, .first, hw.opcode, ?_⟩
      have hle := hc.greatest (hreached .first) hw.opcode
      show s.maxDepth = _
      omega
    · exact hattained
  · rintro m ⟨i, op, hi, hop, rfl⟩
    exact hc.greatest (hreached hi) hop

/-- The analysis of sound code under any positive limit reports a run that has nothing left to
look at. -/
theorem check_visits (h : Sound f c) (limit : Int) (hlimit : 0 < limit) :
    ∃ n s, check c limit = .ok ⟨s.maxDepth, s.depths, s.errors⟩ ∧
    Visits c limit.toNat (.start c) n s ∧ s.pending = [] := by
  obtain ⟨n, s, hexplore, hvisits, hnil⟩ :=
    explore_visits limit.toNat h (2 * c.size + 2) (.start c) (State.start_inside h)
      (Nat.le_succ_of_le (State.start_room c)) .still
  refine ⟨n, s, ?_, hvisits, hnil⟩
  unfold check
  rw [if_neg (by omega)]
  show (explore c limit.toNat (2 * c.size + 2) (.start c)).bind _ = _
  rw [hexplore]
  rfl

/-- The analysis of sound code under any positive limit has a result, reached by visiting until
nothing is pending. It is valid exactly when there is an assignment of depths; there is at most
one, and the result reports it. Visits in any other order succeed just as well, end as soon, and
come to the same verdict. -/
theorem check_exact (h : Sound f c) (limit : Int) (hlimit : 0 < limit) :
    ∃ r, check c limit = .ok r ∧
      (∃ n s, Visits c limit.toNat (.start c) n s ∧ s.pending = [] ∧
        r = ⟨s.maxDepth, s.depths, s.errors⟩) ∧
      (r.valid = true ↔ ∃ d, Assignment c limit.toNat d) ∧
      (∀ d d', Assignment c limit.toNat d → Assignment c limit.toNat d' →
        ∀ i, Reachable c i → d i = d' i) ∧
      (∀ d, Assignment c limit.toNat d → Reports c d r) ∧
      ∀ n s, Visits c limit.toNat (.start c) n s →
        n ≤ 2 * c.size + 1 ∧
        (∀ place depth rest, s.pending.Perm ((place, depth) :: rest) →
          ∃ s', visit c limit.toNat { s with pending := rest } place depth = .ok s') ∧
        (s.pending = [] → (s.errors = #[] ↔ r.valid = true)) := by
  have hinside := State.start_inside h
  obtain ⟨n, s, hcheck, hvisits, hnil⟩ := check_visits h limit hlimit
  have hvalid : (⟨s.maxDepth, s.depths, s.errors⟩ : Result).valid = true ↔ s.errors = #[] :=
    Array.isEmpty_iff
  refine ⟨⟨s.maxDepth, s.depths, s.errors⟩, hcheck, ⟨n, s, hvisits, hnil, rfl⟩, ?_,
    fun d d' ha ha' i hi => ha.unique ha' hi, fun d ha =>
      hvisits.reports h hnil ha, fun m s' hv => ?_⟩
  · exact hvalid.trans (hvisits.verdict h hnil)
  · have hgoing := hv.going h hinside (State.start_consistent c limit.toNat)
    refine ⟨?_, fun place depth rest hp => ?_, fun hnil' => ?_⟩
    · have hroom := hgoing.room
      have hstart := State.start_room c
      omega
    · obtain ⟨-, -, s₁, -, -, -, -, hvisit, -⟩ := visit_pending limit.toNat h hgoing.inside hp
      exact ⟨s₁, hvisit⟩
    · exact (hv.verdict h hnil').trans ((hvisits.verdict h hnil).symm.trans hvalid.symm)

/-- Pushes a condition, and halts on either side of it. -/
def fork : Chunk where
  code := ⟨#[Opcode.true.toByte, Opcode.jumpIfTrue.toByte, 0, 1, Opcode.halt.toByte,
    Opcode.halt.toByte]⟩

/-- The fork needs one value, which both sides have taken again. -/
theorem fork_depths :
    ∃ r, check fork 1 = .ok r ∧ r.valid = true ∧ ∃ d, Assignment fork 1 d ∧ Reports fork d r := by
  have hsound : Sound ⟨0, "main", 0, 0, 0, some fork⟩ fork := by
    refine ⟨⟨Array.isEmpty_iff.mp (by decide +kernel), by decide⟩, fun i hi => ?_, by rfl⟩
    have hclean : ∀ i < fork.size,
        (jumpComplaints fork (scan ⟨0, "main", 0, 0, 0, some fork⟩ fork) i).isEmpty := by
      decide +kernel
    exact List.isEmpty_iff.mp (hclean i hi.2)
  obtain ⟨r, hr, -, hiff, -, hreports, -⟩ := check_exact hsound 1 (by decide)
  have hvalid : (check fork 1).toOption.all Result.valid = true := by decide +kernel
  rw [hr] at hvalid
  obtain ⟨d, hd⟩ := hiff.mp hvalid
  exact ⟨r, hr, hvalid, d, hd, hreports d hd⟩

end LoopTracer.Bytecode.StackDepth
