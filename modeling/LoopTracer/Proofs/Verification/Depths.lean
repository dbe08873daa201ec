import LoopTracer.Proofs.Verification.Boundaries

/-! Stack depths of clean code.

Code whose operands, jumps and end raise no complaint is closed under the flow of control
(`Sound.flow_starts`), so the depth analysis never looks outside it: it always has a result, and
it never runs out of places to look at (`explore_ok`). When the result has no errors it is a
consistent labelling (`Labelled`): the first instruction has depth zero, and an instruction of
depth `d` takes at most `d` values, stays below the limit and hands its own depth on to wherever
control goes next. -/
namespace LoopTracer.Bytecode

/-- Code that control never leaves. -/
structure Sound (f : Function) (c : Chunk) : Prop extends Clean f c where
  jumps : ∀ i, Starts c i → jumpComplaints c (scan f c) i = []
  ends : endComplaint? c (scan f c) = none

namespace StackDepth

/-- Where control goes from the instruction at an offset. -/
def flow (c : Chunk) (op : Opcode) (i : Nat) : List Int :=
  match op with
  | .jump | .loop => [c.jumpTarget i]
  | .jumpIfFalse | .jumpIfTrue => [((i + op.size : Nat) : Int), c.jumpTarget i]
  | .ret | .halt => []
  | _ => [((i + op.size : Nat) : Int)]

/-- The effect of the operation at an offset, its operand byte being the next one. -/
def effectOf (c : Chunk) (op : Opcode) (i : Nat) : Effect :=
  effect op ((c.byte? ((i : Int) + 1)).getD 0)

theorem flow_length (c : Chunk) (op : Opcode) (i : Nat) : (flow c op i).length ≤ 2 := by
  cases op <;> simp [flow]

variable {f : Function} {c : Chunk} {i : Nat} {op : Opcode} {b : UInt8}

theorem effectAt_eq (h : Whole f c i op) (ho : Opcode.ofByte? b = some op) :
    effectAt c b i = .ok (effectOf c op i) := by
  unfold effectAt effectOf
  rw [ho]
  by_cases hop : op.operand = .byte
  · obtain ⟨a, ha⟩ := h.arg hop
    simp [hop, ha]
  · have hbyte : (op.operand == .byte) = false := by simpa using hop
    simp only [hbyte, Bool.false_eq_true, if_false, Except.ok.injEq]
    -- Only operations with an operand byte look at it.
    cases op <;> first | rfl | exact absurd rfl hop

theorem successors_eq (h : Whole f c i op) (ho : Opcode.ofByte? b = some op) :
    successors c b i = .ok (flow c op i) := by
  have hnext : (i : Int) + (byteSize b : Nat) = ((i + op.size : Nat) : Int) := by
    rw [byteSize_of_opcode ho]
    push_cast
    rfl
  unfold successors flow
  rw [ho, h.target, hnext]
  cases op <;> rfl

end StackDepth

namespace Sound

open StackDepth

variable {f : Function} {c : Chunk} {i : Nat} {op : Opcode}

theorem starts_zero (h : Sound f c) : Starts c 0 := ⟨.here 0, h.nonempty⟩

theorem jumpTarget_starts (h : Sound f c) (hi : Starts c i) (hw : Whole f c i op)
    (hop : op.operand = .jump ∨ op.operand = .loop) :
    ∃ j : Nat, c.jumpTarget i = j ∧ Starts c j := by
  obtain ⟨b, -, hb, ho⟩ := hw.byte
  have hclean := h.jumps i hi
  simp only [jumpComplaints, hb, Option.bind_some, ho, hw.target] at hclean
  have hjump : (op.operand == .jump || op.operand == .loop) = true := by simpa using hop
  rw [if_pos hjump, List.append_eq_nil_iff] at hclean
  refine (h.isStart_iff _).mp ?_
  by_cases hstart : (scan f c).isStart (c.jumpTarget i) = true
  · exact hstart
  · simp [hstart] at hclean

/-- Loops go back. -/
theorem loop_back (h : Sound f c) (hi : Starts c i) (hw : Whole f c i .loop) :
    c.jumpTarget i ≤ i := by
  obtain ⟨b, -, hb, ho⟩ := hw.byte
  have hclean := h.jumps i hi
  simp only [jumpComplaints, hb, Option.bind_some, ho, hw.target] at hclean
  have hjump : (Opcode.loop.operand == .jump || Opcode.loop.operand == .loop) = true := rfl
  rw [if_pos hjump, List.append_eq_nil_iff] at hclean
  refine Int.not_lt.mp fun hforward => ?_
  simp [hforward] at hclean

/-- Only an instruction that goes elsewhere stands at the end. -/
theorem next_starts (h : Sound f c) (hi : Starts c i) (hw : Whole f c i op)
    (hop : op ≠ .ret ∧ op ≠ .halt ∧ op ≠ .jump ∧ op ≠ .loop) : Starts c (i + op.size) := by
  refine ⟨hi.1.next hw.opcode, Nat.lt_of_le_of_ne hw.fits fun hend => ?_⟩
  have hlast := h.eq_last hi hw.opcode hend
  obtain ⟨b, hb, -, ho⟩ := hw.byte
  have hclean := h.ends
  simp only [endComplaint?, hlast, hb, ho] at hclean
  obtain ⟨hret, hhalt, hjump, hloop⟩ := hop
  cases op <;> contradiction

theorem flow_starts (h : Sound f c) (hi : Starts c i) (hw : Whole f c i op) {p : Int}
    (hp : p ∈ flow c op i) : ∃ j : Nat, p = j ∧ Starts c j := by
  unfold flow at hp
  split at hp
  · obtain rfl := List.mem_singleton.mp hp
    exact h.jumpTarget_starts hi hw (.inl rfl)
  · obtain rfl := List.mem_singleton.mp hp
    exact h.jumpTarget_starts hi hw (.inr rfl)
  · rcases List.mem_cons.mp hp with rfl | hp
    · exact ⟨_, rfl, h.next_starts hi hw (by decide)⟩
    · obtain rfl := List.mem_singleton.mp hp
      exact h.jumpTarget_starts hi hw (.inl rfl)
  · rcases List.mem_cons.mp hp with rfl | hp
    · exact ⟨_, rfl, h.next_starts hi hw (by decide)⟩
    · obtain rfl := List.mem_singleton.mp hp
      exact h.jumpTarget_starts hi hw (.inl rfl)
  · cases hp
  · cases hp
  · obtain rfl := List.mem_singleton.mp hp
    exact ⟨_, rfl, h.next_starts hi hw ⟨‹_›, ‹_›, ‹_›, ‹_›⟩⟩

end Sound

namespace StackDepth

variable {f : Function} {c : Chunk} {limit i d : Nat} {op : Opcode} {s s' : State}

/-! ### One visit -/

/-- The depth behind the operation at an offset. -/
def after (c : Chunk) (op : Opcode) (i d : Nat) : Nat :=
  d - (effectOf c op i).pops + (effectOf c op i).pushes

/-- The depth before an instruction, once it has been reached. -/
def State.depth? (s : State) (i : Nat) : Option Nat := s.depths[i]?.join

/-- The analysis once it went past an instruction it had not reached before. -/
def State.enter (s : State) (c : Chunk) (op : Opcode) (i d : Nat) : State :=
  { s with
    depths := s.depths.set! i (some d)
    maxDepth := max s.maxDepth (after c op i d)
    pending := (flow c op i).map (·, after c op i d) ++ s.pending }

/-- The analysis looks at instructions only. -/
structure Inside (c : Chunk) (s : State) : Prop where
  size : s.depths.size = c.size
  pending : ∀ p ∈ s.pending, ∃ j : Nat, p.1 = j ∧ Starts c j

/-- What a visit of an instruction leaves behind. -/
inductive Visited (c : Chunk) (limit : Nat) (op : Opcode) (i d : Nat) (s : State) : State → Prop
  | again : s.depth? i = some d → Visited c limit op i d s s
  | entered : s.depths[i]? = some none → (effectOf c op i).pops ≤ d → after c op i d ≤ limit →
      Visited c limit op i d s (s.enter c op i d)
  | refused {s' : State} : s'.errors ≠ #[] → s'.pending = s.pending →
      s'.depths.size = s.depths.size → s'.depths.count none ≤ s.depths.count none →
      s.depth? i ≠ some d →
      (s.depth? i = none → d < (effectOf c op i).pops ∨ limit < after c op i d) →
      Visited c limit op i d s s'

theorem count_none_set {a : Array (Option Nat)} {i : Nat} (h : a[i]? = some none) (d : Nat) :
    (a.set! i (some d)).count none + 1 = a.count none := by
  obtain ⟨hi, hnone⟩ := getElem?_eq_some_iff.mp h
  have hpos : 0 < a.count none := Array.count_pos_iff.mpr (hnone ▸ Array.getElem_mem hi)
  rw [Array.set!_eq_setIfInBounds, Array.setIfInBounds, dif_pos hi, Array.count_set hi, hnone]
  simp
  omega

theorem visit_visited (hw : Whole f c i op) (hs : Inside c s) :
    ∃ s', visit c limit s i d = .ok s' ∧ Visited c limit op i d s s' := by
  obtain ⟨b, hb, -, ho⟩ := hw.byte
  have hlt := hw.lt_size
  unfold visit
  rw [if_neg (by omega), if_neg (by omega)]
  simp only [Int.toNat_natCast, hb]
  cases hd : s.depths[i]? with
  | none =>
    have : s.depths.size ≤ i := Array.getElem?_eq_none_iff.mp hd
    have := hs.size
    omega
  | some reached =>
    cases reached with
    | some known =>
      refine ⟨_, rfl, ?_⟩
      by_cases heq : known = d
      · subst heq
        simpa using .again (by rw [State.depth?, hd]; rfl)
      · have hne : (known == d) = false := by simpa using heq
        rw [hne]
        have hknown : s.depth? i = some known := by rw [State.depth?, hd]; rfl
        exact .refused (by simp) rfl rfl (Nat.le_refl _) (by simpa [hknown] using heq)
          (by simp [hknown])
    | none =>
      have hcount := count_none_set hd d
      have hnew : s.depth? i = none := by rw [State.depth?, hd]; rfl
      simp only [effectAt_eq hw ho, successors_eq hw ho]
      by_cases hpops : d < (effectOf c op i).pops
      · refine ⟨_, by simp [bind, Except.bind, hpops]; rfl, ?_⟩
        refine .refused (by simp) rfl (by simp) ?_ (by simp [hnew]) fun _ => .inl hpops
        show (s.depths.set! i (some d)).count none ≤ _
        omega
      · by_cases hover : limit < after c op i d
        · have hafter := hover
          unfold after at hover
          refine ⟨_, by simp [bind, Except.bind, hpops, hover]; rfl, ?_⟩
          refine .refused (by simp) rfl (by simp) ?_ (by simp [hnew]) fun _ => .inr hafter
          show (s.depths.set! i (some d)).count none ≤ _
          omega
        · refine ⟨s.enter c op i d, ?_, .entered hd (by omega) (by omega)⟩
          unfold after at hover
          simp [bind, Except.bind, hpops, hover, State.enter, after]
          rfl

theorem Visited.inside (h : Sound f c) (hi : Starts c i) (hw : Whole f c i op) (hs : Inside c s)
    (hv : Visited c limit op i d s s') : Inside c s' := by
  cases hv with
  | again _ => exact hs
  | entered _ _ _ =>
    refine ⟨by simp [State.enter, hs.size], fun p hp => ?_⟩
    rcases List.mem_append.mp hp with hp | hp
    · obtain ⟨place, hplace, rfl⟩ := List.mem_map.mp hp
      exact h.flow_starts hi hw hplace
    · exact hs.pending p hp
  | refused _ hpending hsize _ => exact ⟨hsize.trans hs.size, hpending ▸ hs.pending⟩

/-- Errors are never withdrawn. -/
theorem Visited.clean (hv : Visited c limit op i d s s')
    (h : s'.errors = #[]) : s.errors = #[] := by
  cases hv with
  | again _ => exact h
  | entered _ _ _ => exact h
  | refused herr _ _ _ => exact absurd h herr

/-- How many visits are left at most: every instruction not yet reached adds two places. -/
def State.room (s : State) : Nat := 2 * s.depths.count none + s.pending.length

theorem Visited.room_le (hv : Visited c limit op i d s s') : s'.room ≤ s.room := by
  unfold State.room
  cases hv with
  | again _ => exact Nat.le_refl _
  | entered hd _ _ =>
    have hcount := count_none_set hd d
    have hflow := flow_length c op i
    simp only [State.enter, List.length_append, List.length_map]
    omega
  | refused _ hpending _ hcount =>
    rw [hpending]
    omega

/-! ### The whole analysis -/

/-- The depths known so far agree, except for what is pending. -/
structure Consistent (c : Chunk) (limit : Nat) (s : State) : Prop where
  highest : s.maxDepth ≤ limit
  first : s.depth? 0 = some 0 ∨ (0, 0) ∈ s.pending
  starts : ∀ {i d}, s.depth? i = some d → Starts c i
  pops : ∀ {i d op}, s.depth? i = some d → c.opcode? i = some op → (effectOf c op i).pops ≤ d
  bounded : ∀ {i d op}, s.depth? i = some d → c.opcode? i = some op → after c op i d ≤ limit
  greatest : ∀ {i d op}, s.depth? i = some d → c.opcode? i = some op →
    after c op i d ≤ s.maxDepth
  flows : ∀ {i d op}, s.depth? i = some d → c.opcode? i = some op → ∀ j : Nat,
    (j : Int) ∈ flow c op i →
      s.depth? j = some (after c op i d) ∨ ((j : Int), after c op i d) ∈ s.pending

theorem State.depth?_enter (hd : s.depths[i]? = some none) (j : Nat) :
    (s.enter c op i d).depth? j = if i = j then some d else s.depth? j := by
  have hlt := (getElem?_eq_some_iff.mp hd).1
  unfold State.depth? State.enter
  rw [Array.set!_eq_setIfInBounds, Array.getElem?_setIfInBounds]
  by_cases hij : i = j
  · subst hij
    simp [hlt]
  · simp [hij]

/-- Visiting the first pending place keeps what is known consistent. -/
theorem Visited.consistent {rest : List (Int × Nat)} (hi : Starts c i) (hop : c.opcode? i = some op)
    (hs : Consistent c limit { s with pending := ((i : Int), d) :: rest })
    (hv : Visited c limit op i d { s with pending := rest } s') (hclean : s'.errors = #[]) :
    Consistent c limit s' := by
  cases hv with
  | again hd =>
    -- A place that was waited for is known by now, or still pending.
    have settle : ∀ {j e}, s.depth? j = some e ∨ ((j : Int), e) ∈ ((i : Int), d) :: rest →
        s.depth? j = some e ∨ ((j : Int), e) ∈ rest := by
      rintro j e (hk | hk)
      · exact .inl hk
      · rcases List.mem_cons.mp hk with heq | hk
        · obtain ⟨hj, rfl⟩ := Prod.mk.inj heq
          obtain rfl : j = i := by omega
          exact .inl hd
        · exact .inr hk
    exact ⟨hs.highest, settle hs.first, hs.starts, hs.pops, hs.bounded, hs.greatest,
      fun hk ho j hj => settle (hs.flows hk ho j hj)⟩
  | entered hd hpops hlimit =>
    have known : ∀ j, (State.enter { s with pending := rest } c op i d).depth? j =
        if i = j then some d else s.depth? j := State.depth?_enter hd
    -- A depth that is known afterwards is the new one or was known before.
    have old : ∀ {j e}, (State.enter { s with pending := rest } c op i d).depth? j = some e →
        (j = i ∧ e = d) ∨ s.depth? j = some e := by
      intro j e hj
      rw [known] at hj
      split at hj
      · next hij => exact .inl ⟨hij.symm, (Option.some.inj hj).symm⟩
      · exact .inr hj
    have settle : ∀ {j e}, s.depth? j = some e ∨ ((j : Int), e) ∈ ((i : Int), d) :: rest →
        (State.enter { s with pending := rest } c op i d).depth? j = some e ∨
          ((j : Int), e) ∈ (State.enter { s with pending := rest } c op i d).pending := by
      rintro j e (hk | hk)
      · have hij : i ≠ j := by
          rintro rfl
          have hnone : s.depths[i]? = some none := hd
          rw [State.depth?, hnone] at hk
          cases hk
        left
        rw [known, if_neg hij]
        exact hk
      · rcases List.mem_cons.mp hk with heq | hk
        · obtain ⟨hj, rfl⟩ := Prod.mk.inj heq
          obtain rfl : j = i := by omega
          left
          rw [known, if_pos rfl]
        · exact .inr (List.mem_append_right _ hk)
    have hmax : s.maxDepth ≤ (State.enter { s with pending := rest } c op i d).maxDepth :=
      Nat.le_max_left ..
    refine ⟨Nat.max_le.mpr ⟨hs.highest, hlimit⟩, settle hs.first, fun hj => ?_, fun hj ho => ?_,
      fun hj ho => ?_, fun hj ho => ?_, fun hj ho k hk => ?_⟩
    · rcases old hj with ⟨rfl, rfl⟩ | hj
      · exact hi
      · exact hs.starts hj
    · rcases old hj with ⟨rfl, rfl⟩ | hj
      · obtain rfl := Option.some.inj (hop.symm.trans ho)
        exact hpops
      · exact hs.pops hj ho
    · rcases old hj with ⟨rfl, rfl⟩ | hj
      · obtain rfl := Option.some.inj (hop.symm.trans ho)
        exact hlimit
      · exact hs.bounded hj ho
    · rcases old hj with ⟨rfl, rfl⟩ | hj
      · obtain rfl := Option.some.inj (hop.symm.trans ho)
        exact Nat.le_max_right ..
      · exact Nat.le_trans (hs.greatest hj ho) hmax
    · rcases old hj with ⟨rfl, rfl⟩ | hj
      · obtain rfl := Option.some.inj (hop.symm.trans ho)
        exact .inr (List.mem_append_left _ (List.mem_map_of_mem hk))
      · exact settle (hs.flows hj ho k hk)
  | refused herr _ _ _ => exact absurd hclean herr

/-- The analysis of sound code has a result. Without errors, and with fuel for all visits, it is
consistent and complete. -/
theorem explore_ok (h : Sound f c) (fuel : Nat) (s : State) (hs : Inside c s) :
    ∃ s', explore c limit fuel s = .ok s' ∧ (s'.errors = #[] → s.errors = #[]) ∧
      (Consistent c limit s → s.room ≤ fuel → s'.errors = #[] →
        s'.pending = [] ∧ Consistent c limit s') := by
  induction fuel generalizing s with
  | zero =>
    refine ⟨s, rfl, id, fun hc hroom _ => ⟨?_, hc⟩⟩
    unfold State.room at hroom
    exact List.eq_nil_of_length_eq_zero (by omega)
  | succ fuel ih =>
    cases hp : s.pending with
    | nil =>
      refine ⟨s, ?_, id, fun hc _ _ => ⟨hp, hc⟩⟩
      simp only [explore, hp]
    | cons p rest =>
      obtain ⟨place, d⟩ := p
      have hs_eq : s = { s with pending := (place, d) :: rest } := by rw [← hp]
      obtain ⟨i, hplace, hi⟩ := hs.pending (place, d) (by simp [hp])
      obtain rfl : place = i := hplace
      obtain ⟨op, hw⟩ := h.whole hi
      have hrest : Inside c { s with pending := rest } :=
        ⟨hs.size, fun q hq => hs.pending q (by simp [hp, hq])⟩
      obtain ⟨s₁, hvisit, hv⟩ :
          ∃ s₁, visit c limit { s with pending := rest } i d = .ok s₁ ∧
            Visited c limit op i d { s with pending := rest } s₁ := visit_visited hw hrest
      obtain ⟨s₂, hexplore, hclean, hdone⟩ := ih s₁ (hv.inside h hi hw hrest)
      refine ⟨s₂, ?_, fun he => hv.clean (hclean he), fun hc hroom he => ?_⟩
      · simp only [explore, hp]
        rw [hvisit]
        exact hexplore
      · rw [hs_eq] at hc
        refine hdone (Visited.consistent hi hw.opcode hc hv (hclean he)) ?_ he
        have hless : s₁.room ≤ 2 * s.depths.count none + rest.length := hv.room_le
        rw [State.room, hp, List.length_cons] at hroom
        omega

/-- The analysis before its first visit. -/
def State.start (c : Chunk) : State :=
  { depths := Array.replicate c.size none, pending := [(0, 0)] }

theorem State.start_depth? (c : Chunk) (i : Nat) : (State.start c).depth? i = none := by
  simp only [State.depth?, State.start, Array.getElem?_replicate]
  split <;> rfl

theorem State.start_inside (h : Sound f c) : Inside c (.start c) := by
  refine ⟨by simp [State.start], fun p hp => ⟨0, ?_, h.starts_zero⟩⟩
  obtain rfl := List.mem_singleton.mp hp
  rfl

theorem State.start_consistent (c : Chunk) (limit : Nat) : Consistent c limit (.start c) := by
  have hunknown := State.start_depth? c
  refine ⟨Nat.zero_le _, .inr (List.mem_singleton.mpr rfl), ?_, ?_, ?_, ?_, ?_⟩ <;>
    · intros
      simp_all

theorem State.start_room (c : Chunk) : (State.start c).room ≤ 2 * c.size + 1 := by
  have hcount : (Array.replicate c.size (none : Option Nat)).count none ≤ _ := Array.count_le_size
  rw [Array.size_replicate] at hcount
  simp only [State.room, State.start, List.length_singleton]
  omega

/-- A labelling of the instructions with stack depths that every step of control respects. -/
structure Labelled (c : Chunk) (limit : Nat) (r : Result) : Prop where
  highest : r.maxDepth ≤ limit
  first : r.depths[0]?.join = some 0
  starts : ∀ {i d}, r.depths[i]?.join = some d → Starts c i
  pops : ∀ {i d op}, r.depths[i]?.join = some d → c.opcode? i = some op →
    (effectOf c op i).pops ≤ d
  bounded : ∀ {i d op}, r.depths[i]?.join = some d → c.opcode? i = some op → after c op i d ≤ limit
  greatest : ∀ {i d op}, r.depths[i]?.join = some d → c.opcode? i = some op →
    after c op i d ≤ r.maxDepth
  flows : ∀ {i d op}, r.depths[i]?.join = some d → c.opcode? i = some op → ∀ j : Nat,
    (j : Int) ∈ flow c op i → r.depths[j]?.join = some (after c op i d)

/-- The analysis of sound code has a result, and without errors it is a labelling. -/
theorem check_labelled (h : Sound f c) (limit : Nat) (hlimit : 0 < limit) :
    ∃ r, check c limit = .ok r ∧ (r.errors = #[] → Labelled c limit r) := by
  obtain ⟨s, hexplore, -, hdone⟩ := explore_ok h (2 * c.size + 2) (.start c) (State.start_inside h)
  refine ⟨⟨s.maxDepth, s.depths, s.errors⟩, ?_, fun he => ?_⟩
  · unfold check
    rw [if_neg (by omega), Int.toNat_natCast]
    show (explore c limit (2 * c.size + 2) (.start c)).bind _ = _
    rw [hexplore]
    rfl
  · have hroom := State.start_room c
    obtain ⟨hnil, hc⟩ := hdone (State.start_consistent c limit) (by omega) he
    have done : ∀ {j e}, s.depth? j = some e ∨ ((j : Int), e) ∈ s.pending →
        s.depth? j = some e := by
      rintro j e (hj | hj)
      · exact hj
      · rw [hnil] at hj
        cases hj
    exact ⟨hc.highest, done hc.first, hc.starts, hc.pops, hc.bounded, hc.greatest,
      fun hd ho j hj => done (hc.flows hd ho j hj)⟩

end StackDepth

/-! ### What it means that verification has nothing to complain about

`Verified` collects everything the interpreter relies on: the code is sound, the parameters are
locals, and the recorded greatest depth belongs to a labelling of the code with stack depths.
Every function of an accepted program is verified (`Program.verified_of_accepted`). -/

open StackDepth

/-- What verification has established about a function with the code `c`, whose depths are `r`. -/
structure Verified (fn : Function) (c : Chunk) (r : Result) : Prop where
  chunk : fn.chunk = some c
  sound : Sound fn c
  arity : fn.arity ≤ fn.locals
  depths : check c defaultLimit = .ok r
  labelled : Labelled c defaultLimit r
  maxStack : fn.maxStack = r.maxDepth

/-- The depth that the analysis finds for an offset of a function's code. -/
def Function.depthAt (fn : Function) (i : Nat) : Option Nat :=
  match fn.chunk.map (check · defaultLimit) with
  | some (.ok r) => r.depths[i]?.join
  | _ => none

theorem Verified.depthAt_eq {fn : Function} {c : Chunk} {r : Result}
    (h : Verified fn c r) (i : Nat) :
    fn.depthAt i = r.depths[i]?.join := by
  rw [Function.depthAt, h.chunk, Option.map_some, h.depths]

/-- Complaints do not depend on the recorded depth. -/
theorem scan_withMaxStack (f : Function) (c : Chunk) (m : Int) :
    scan { f with maxStack := m } c = scan f c := by
  have hfrom : ∀ (fuel offset : Nat) (s : Scan),
      scanFrom { f with maxStack := m } c fuel offset s = scanFrom f c fuel offset s := by
    intro fuel
    induction fuel with
    | zero => intro _ _; rfl
    | succ fuel ih =>
      intro offset s
      simp only [scanFrom, ih]
      rfl
  exact hfrom ..

theorem Sound.withMaxStack {f : Function} {c : Chunk} (h : Sound f c) (m : Int) :
    Sound { f with maxStack := m } c where
  complaints := by rw [scan_withMaxStack]; exact h.complaints
  nonempty := h.nonempty
  jumps := by rw [scan_withMaxStack]; exact h.jumps
  ends := by rw [scan_withMaxStack]; exact h.ends

/-- Where the passes before the depth analysis find nothing, the code is sound. -/
theorem Sound.of_unremarked {f : Function} {c : Chunk} {early : List (Nat × Complaint)}
    (hsize : 0 < c.size)
    (h : early ++ (scan f c).complaints.toList
      ++ ((List.range c.size).filter fun (i : Nat) => (scan f c).isStart i).flatMap
        (jumpComplaints c (scan f c)) ++ (endComplaint? c (scan f c)).toList = []) : Sound f c := by
  simp only [List.append_eq_nil_iff, Array.toList_eq_nil_iff, List.flatMap_eq_nil_iff,
    Option.toList_eq_nil_iff] at h
  obtain ⟨⟨⟨-, hscan⟩, hjumps⟩, hends⟩ := h
  have hclean : Clean f c := ⟨hscan, hsize⟩
  refine ⟨hclean, fun i hi => hjumps i ?_, hends⟩
  rw [List.mem_filter, List.mem_range]
  exact ⟨hi.2, (hclean.isStart_iff _).mpr ⟨i, rfl, hi⟩⟩

/-- A function without complaints is verified, with its depth recorded. -/
theorem Function.verified_of_clean (f : Function) (h : f.verify.2 = []) :
    ∃ c r, Verified f.verify.1 c r := by
  unfold verify at h ⊢
  cases hc : f.chunk with
  | none => simp [hc] at h
  | some c =>
    simp only [hc] at h ⊢
    by_cases hsize : (c.size == 0) = true
    · simp [hsize] at h
    · simp only [hsize, Bool.false_eq_true, if_false] at h ⊢
      by_cases hbroken : (scan f c).broken = true
      · rw [if_pos hbroken] at h
        have hclean : (scan f c).complaints = #[] := by
          simpa using (List.append_eq_nil_iff.mp h).2
        have := scanFrom_unbroken _ _ _ hclean
        rw [scan] at hbroken
        simp_all
      · rw [if_neg hbroken] at h ⊢
        generalize hfound : (if f.locals < f.arity
          then [(0, Complaint.arity f.arity f.locals)] else [])
          ++ (scan f c).complaints.toList
          ++ ((List.range c.size).filter fun (i : Nat) => (scan f c).isStart i).flatMap
            (jumpComplaints c (scan f c)) ++ (endComplaint? c (scan f c)).toList = found at h ⊢
        cases found with
        | cons e rest => cases h
        | nil =>
          have hsound : Sound f c :=
            .of_unremarked (by simpa [Nat.pos_iff_ne_zero] using hsize) hfound
          simp only [List.append_eq_nil_iff, ite_eq_right_iff, List.cons_ne_nil, imp_false,
            Int.not_lt] at hfound
          obtain ⟨⟨⟨harity, -⟩, -⟩, -⟩ := hfound
          obtain ⟨r, hcheck, hlabelled⟩ := check_labelled hsound defaultLimit (by decide)
          simp only [List.isEmpty_nil, Bool.not_true, Bool.false_eq_true, if_false, hcheck,
            List.map_eq_nil_iff, Array.toList_eq_nil_iff] at h ⊢
          have hrecorded := hsound.withMaxStack r.maxDepth
          rw [hc] at hrecorded
          exact ⟨c, r, rfl, hrecorded, harity, hcheck, hlabelled h, rfl⟩

/-- Verification changes nothing but the recorded depth. -/
theorem Function.verify_fst (f : Function) : ∃ m, f.verify.1 = { f with maxStack := m } := by
  unfold verify
  split
  · exact ⟨f.maxStack, rfl⟩
  · dsimp only
    repeat' split
    all_goals exact ⟨_, rfl⟩

theorem Program.getElem?_verify (p : Program) (i : Nat) :
    p.verify.1.functions[i]? = p.functions[i]?.map (·.verify.1) := by
  simp [verify, Function.comp_def]

namespace Program

/-- Every function of an accepted program is verified. -/
theorem verified_of_accepted (p : Program) (h : p.verify.2 = []) (fn : Function)
    (hfn : fn ∈ p.verify.1.functions) : ∃ c r, Verified fn c r := by
  simp only [verify, Array.map_map, Array.mem_map] at hfn
  obtain ⟨f, hf, rfl⟩ := hfn
  refine f.verified_of_clean ?_
  simp only [verify, List.append_eq_nil_iff] at h
  obtain ⟨⟨-, hcode⟩, -⟩ := h
  have hnil := List.flatMap_eq_nil_iff.mp hcode f.verify (by simpa using ⟨f, hf, rfl⟩)
  exact List.map_eq_nil_iff.mp hnil

end Program

end LoopTracer.Bytecode
