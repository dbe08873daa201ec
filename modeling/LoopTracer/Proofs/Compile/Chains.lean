import LoopTracer.Compile.Chain
import LoopTracer.Proofs.Compile.Pages
import LoopTracer.Proofs.Machine.Branches

/-! Chains of pages while a trace is written.

Writing code does two things to a chain: it puts a request in front of what is there, or it turns
to a new page. Whatever both keep, all writing keeps (`Moves`). The first thing kept is that the
free pages and the pages of the two chains are together the pages that were free at the start
(`Drawn`), so that giving up returns every page (`Drawn.abandon`). -/
namespace LoopTracer.Compile

open Machine

/-- What stops compiling is no attempt to give back a page that is not in use. -/
def Calm : CompileStop → Prop
  | .error _ => True
  | .fault f => Tame f

/-- The kind of the pages of a chain. -/
def Side.kind : Side → PageKind
  | .main => .main
  | .exits => .exit

theorem Side.kind_ne (side : Side) : side.kind ≠ .free ∧ side.kind ≠ .bailout := by
  cases side <;> exact ⟨nofun, nofun⟩

theorem Side.kind_inj {side side' : Side} (h : side.kind = side'.kind) : side = side' := by
  cases side <;> cases side' <;> first | rfl | cases h

/-! ### Requests -/

theorem tame_binary {op : Op} {dst x y : Reg} {f : Fault}
    (h : X64.binary op dst x y = .error f) : Tame f := by
  unfold X64.binary at h
  repeat' split at h
  all_goals cases h
  all_goals simp [Tame]

theorem tame_unary {op : Op} {dst x : Reg} {f : Fault}
    (h : X64.unary op dst x = .error f) : Tame f := by
  unfold X64.unary at h
  split at h
  all_goals cases h
  simp [Tame]

theorem tame_encode {b : Backend} {pos : CodeAddr} {i : Instr} {f : Fault}
    (h : b.encode pos i = .error f) :
    Tame f := by
  cases b with
  | virtual => cases h
  | x64 =>
    cases i with
    | binary op dst x y => exact tame_binary h
    | unary op dst x => exact tame_unary h
    | _ => cases h

theorem tame_emit {b : Backend} {w w' : Writer} {mem mem' : Memory} {i : Instr} {f : Fault}
    (h : w.emit b mem i = (w', mem', some f)) : Tame f := by
  unfold Writer.emit at h
  split at h
  · next hencode =>
    cases h
    exact tame_encode hencode
  · cases h
  · unfold Writer.prepend at h
    dsimp only at h
    repeat' split at h
    all_goals cases h
    all_goals simp [Tame]

namespace Code

variable {b : Backend} {side : Side} {c c' : Code} {w : Writer}

@[simp] theorem chain_withChain (c : Code) (side : Side) (x : Chain) :
    (c.withChain side x).chain side = x := by
  cases side <;> rfl

@[simp] theorem region_withChain (c : Code) (side : Side) (x : Chain) :
    (c.withChain side x).region = c.region := by
  cases side <;> rfl

/-- What is left of the chains and the region when a request was written. -/
def written (c : Code) (side : Side) (w : Writer) (mem : Memory) : Code :=
  { c with region := { c.region with mem } }.withChain side { c.chain side with writer := some w }

theorem write_eq (b : Backend) (side : Side) (w : Writer) (i : Instr) (c : Code) :
    write b side w i c =
      match w.emit b c.region.mem i with
      | (w', mem, some f) => .error (.fault f) (c.written side w' mem)
      | (w', mem, none) => .ok () (c.written side w' mem) := by
  unfold write
  dsimp only
  obtain ⟨w', mem, fault⟩ := w.emit b c.region.mem i
  cases side <;> cases fault <;> rfl

/-- The writer of a new page. -/
def blankPage (region : CodePages) (h : Nat) : Writer :=
  { low := (region.bounds h).1, cursor := (region.bounds h).2 }

/-- The chains and the region when a chain has turned to a new page. -/
def turned (c : Code) (side : Side) (region : CodePages) (h : Nat) : Code :=
  { c with region }.withChain side { c.chain side with
    pages := (c.chain side).pages.push h
    ranges := match (c.chain side).writer with
      | none => (c.chain side).ranges
      | some old => (c.chain side).ranges.push ⟨old.pos, UInt32.ofInt (c.chain side).high⟩
    writer := some (blankPage region h)
    high := (region.bounds h).2 }

/-- There is no page for a chain to go on in. -/
def noPage (c : Code) (side : Side) : CompileError :=
  ⟨.outOfSpace, "no free " ++ (c.chain side).kind.name ++ " page (" ++
    .ofNat (c.region.pages.size - 1) ++ " pages in use)"⟩

/-- The ways in which a writer with room is had: it is there, there is no page for it, or the chain
turns to a new page, where a jump to the page before is written first. -/
theorem ensure_eq (b : Backend) (side : Side) (c : Code) :
    (∃ w, (c.chain side).writer = some w ∧ room b ≤ w.free ∧ ensure b side c = .ok w c) ∨
    c.region.take? (c.chain side).kind = none ∧ ensure b side c =
      .error (.error (c.noPage side)) c ∨
    ∃ region h, c.region.take? (c.chain side).kind = some (region, h) ∧
      ((c.chain side).writer = none ∧
        ensure b side c = .ok (blankPage region h) (c.turned side region h) ∨
      ∃ old, (c.chain side).writer = some old ∧ old.free < room b ∧
        ensure b side c = (do
          write b side (blankPage region h) (.jump old.pos)
          return ((← get).chain side).writer.getD (blankPage region h))
            (c.turned side region h)) := by
  have hget : (get : Coding Code) c = .ok c c := rfl
  unfold ensure
  rw [bind_ok hget]
  cases hw : (c.chain side).writer with
  | none =>
    cases ht : c.region.take? (c.chain side).kind with
    | none =>
      refine .inr (.inl ⟨rfl, ?_⟩)
      simp only [bind, EStateM.bind, ht]
      rfl
    | some r =>
      refine .inr (.inr ⟨r.1, r.2, rfl, .inl ⟨rfl, ?_⟩⟩)
      simp only [bind, EStateM.bind, ht, turned, hw]
      cases side <;> rfl
  | some old =>
    dsimp only
    split
    · next hroom => exact .inl ⟨old, rfl, hroom, rfl⟩
    · next hroom =>
      cases ht : c.region.take? (c.chain side).kind with
      | none =>
        refine .inr (.inl ⟨rfl, ?_⟩)
        simp only [bind, EStateM.bind, ht]
        rfl
      | some r =>
        refine .inr (.inr ⟨r.1, r.2, rfl, .inr ⟨old, rfl, Int.not_le.mp hroom, ?_⟩⟩)
        simp only [bind, EStateM.bind, ht, turned, hw]
        cases side <;> rfl

/-- A request that was written and the writer that wrote it. -/
theorem write_ok {i : Instr} (h : write b side w i c = .ok () c') :
    ∃ w' mem, w.emit b c.region.mem i = (w', mem, none) ∧ c' = c.written side w' mem := by
  rw [write_eq] at h
  split at h
  · cases h
  · next w' mem hemit =>
    cases h
    exact ⟨w', mem, hemit, rfl⟩

/-- The writer with room is that of the chain. -/
theorem ensure_writer (h : ensure b side c = .ok w c') : (c'.chain side).writer = some w := by
  rcases ensure_eq b side c
    with ⟨w₀, hw, -, heq⟩ | ⟨-, heq⟩ | ⟨region, h₀, -, ⟨-, heq⟩ | ⟨old, -, -, heq⟩⟩
  all_goals rw [heq] at h
  · cases h
    exact hw
  · cases h
  · cases h
    simp [turned]
  · obtain ⟨_, c₁, hwrite, hrest⟩ := bind_eq_ok h
    obtain ⟨w', mem, -, rfl⟩ := write_ok hwrite
    cases hrest
    simp [written]

theorem write_error {i : Instr} {e : CompileError} : write b side w i c ≠ .error (.error e) c' := by
  intro h
  rw [write_eq] at h
  split at h
  · cases h
  · cases h

/-- Writing gives up only where there is no page left. -/
theorem ensure_error {e : CompileError}
    (h : ensure b side c = .error (.error e) c') : e.kind = .outOfSpace := by
  rcases ensure_eq b side c
    with ⟨w₀, -, -, heq⟩ | ⟨-, heq⟩ | ⟨region, h₀, -, ⟨-, heq⟩ | ⟨old, -, -, heq⟩⟩
  all_goals rw [heq] at h
  · cases h
  · cases h
    rfl
  · cases h
  · rcases bind_eq_error h with hwrite | ⟨_, _, -, hrest⟩
    · exact absurd hwrite write_error
    · cases hrest

theorem emit_error {i : Instr} {e : CompileError}
    (h : emit b side i c = .error (.error e) c') : e.kind = .outOfSpace := by
  rcases bind_eq_error h with hensure | ⟨_, _, -, hwrite⟩
  · exact ensure_error hensure
  · exact absurd hwrite write_error

theorem pos_error {e : CompileError}
    (h : pos b side c = .error (.error e) c') : e.kind = .outOfSpace := by
  have hget : (get : Coding Code) c = .ok c c := rfl
  unfold pos at h
  rw [bind_ok hget] at h
  cases hw : (c.chain side).writer with
  | some w =>
    rw [hw] at h
    cases h
  | none =>
    rw [hw] at h
    rcases bind_eq_error h with hensure | ⟨_, _, -, hrest⟩
    · exact ensure_error hensure
    · cases hrest

/-! ### What all writing keeps -/

/-- What writing a request and turning to a new page keep. -/
structure Moves (R : Code → Code → Prop) (b : Backend) : Prop where
  write : ∀ {c : Code} {side : Side} {w : Writer} {i : Instr} {w' : Writer} {mem : Memory}
    {fault : Option Fault},
    (c.chain side).writer = some w → w.emit b c.region.mem i = (w', mem, fault) →
      R c (c.written side w' mem)
  turn : ∀ {c : Code} {side : Side} {region : CodePages} {h : Nat},
    c.region.take? (c.chain side).kind = some (region, h) → R c (c.turned side region h)

section Moves

variable {R : Code → Code → Prop} [IsPreorder Code R]

omit [IsPreorder Code R] in
theorem Moves.writes (m : Moves R b) (hw : (c.chain side).writer = some w) (i : Instr) :
    KeepsAt R Calm (Code.write b side w i) c := by
  rw [KeepsAt, write_eq]
  generalize hemit : w.emit b c.region.mem i = r
  obtain ⟨w', mem, fault⟩ := r
  cases fault with
  | none => exact m.write hw hemit
  | some f => exact ⟨m.write hw hemit, tame_emit hemit⟩

theorem Moves.ensure (m : Moves R b) (side : Side) : Keeps R Calm (Code.ensure b side) := by
  intro c
  rcases ensure_eq b side c
    with ⟨w, -, -, heq⟩ | ⟨-, heq⟩ | ⟨region, h, htake, ⟨-, heq⟩ | ⟨old, -, -, heq⟩⟩
  · exact (keepsAt_ok heq).mpr (refl_of R c)
  · exact (keepsAt_error heq).mpr ⟨refl_of R c, trivial⟩
  · exact (keepsAt_ok heq).mpr (m.turn htake)
  · have hwriter : ((c.turned side region h).chain side).writer = some (blankPage region h) := by
      simp [turned]
    refine .after (m.turn htake) (.bind (m.writes hwriter _) fun _ c₁ _ => ?_) heq
    exact Keeps.bind .get (fun _ => .pure _) c₁

theorem Moves.emit (m : Moves R b) (side : Side) (i : Instr) : Keeps R Calm (Code.emit b side i) :=
  fun c => .bind (m.ensure side c) fun _ _ hw => m.writes (ensure_writer hw) i

theorem Moves.emitBranch (m : Moves R b) (side : Side) (i : Instr) :
    Keeps R Calm (Code.emitBranch b side i) := fun c =>
  .bind (m.ensure side c) fun _ _ hw =>
    .bind (m.writes (ensure_writer hw) i) fun _ c₂ _ => Keeps.pure _ c₂

theorem Moves.pos (m : Moves R b) (side : Side) : Keeps R Calm (Code.pos b side) := by
  refine .bind .get fun c => ?_
  split
  · exact .pure _
  · exact .bind (m.ensure side) fun _ => .pure _

end Moves

/-! ### Pages -/

/-- The pages that were free in `r`, listed by `l`, are those of the two chains and the free ones;
nothing else about the pages of the region has changed. -/
structure Drawn (r : CodePages) (l : List Nat) (c : Code) : Prop where
  frees : ∃ l', c.region.Frees l' ∧ (c.main.pages.toList ++ c.exits.pages.toList ++ l').Perm l
  kind : ∀ side, (c.chain side).kind = side.kind
  used : ∀ side, ∀ h ∈ (c.chain side).pages, c.region.pages[h]? = some { kind := side.kind }
  others : ∀ h, h ∉ l → c.region.pages[h]? = r.pages[h]?
  size : c.region.pages.size = r.pages.size
  pageSize : c.region.pageSize = r.pageSize
  bailout : c.region.bailout = r.bailout
  last : c.region.last = r.last

section Drawn

variable {r : CodePages} {l : List Nat}

theorem drawn_start (hf : r.Frees l) : Drawn r l { region := r } where
  frees := ⟨l, hf, by simp⟩
  kind side := by cases side <;> rfl
  used side h hh := by cases side <;> simp [chain] at hh
  others _ _ := rfl
  size := rfl
  pageSize := rfl
  bailout := rfl
  last := rfl

theorem pages_written (c : Code) (side side' : Side) (w : Writer) (mem : Memory) :
    ((c.written side w mem).chain side').pages = (c.chain side').pages ∧
      ((c.written side w mem).chain side').kind = (c.chain side').kind := by
  cases side <;> cases side' <;> exact ⟨rfl, rfl⟩

/-- The pages of the region and of the chains are all that matters. -/
theorem Drawn.congr (hd : Drawn r l c)
    (hregion : c'.region = { c.region with mem := c'.region.mem })
    (hchain : ∀ side, (c'.chain side).pages = (c.chain side).pages ∧
      (c'.chain side).kind = (c.chain side).kind) :
    Drawn r l c' := by
  obtain ⟨l', hf, hperm⟩ := hd.frees
  have hmain := (hchain .main).1
  have hexits := (hchain .exits).1
  refine ⟨⟨l', ?_, ?_⟩, fun side' => ?_, fun side' h hh => ?_, ?_, ?_, ?_, ?_, ?_⟩
  · rw [hregion]
    exact hf.congr rfl rfl rfl fun j p hp => ⟨p, hp, rfl, rfl⟩
  · rw [show c'.main.pages = c.main.pages from hmain,
      show c'.exits.pages = c.exits.pages from hexits]
    exact hperm
  · rw [(hchain side').2]
    exact hd.kind side'
  · rw [(hchain side').1] at hh
    rw [hregion]
    exact hd.used side' h hh
  all_goals rw [hregion]
  · exact hd.others
  · exact hd.size
  · exact hd.pageSize
  · exact hd.bailout
  · exact hd.last

theorem Drawn.written (hd : Drawn r l c) (side : Side) (w : Writer) (mem : Memory) :
    Drawn r l (c.written side w mem) := by
  refine hd.congr ?_ fun side' => pages_written c side side' w mem
  simp [Code.written]

theorem pages_turned (c : Code) (side side' : Side) (region : CodePages) (h : Nat) :
    ((c.turned side region h).chain side').pages =
        (if side' = side then (c.chain side').pages.push h else (c.chain side').pages) ∧
      ((c.turned side region h).chain side').kind = (c.chain side').kind := by
  cases side <;> cases side' <;> exact ⟨rfl, rfl⟩

theorem Drawn.turned (hd : Drawn r l c) {region : CodePages} {h : Nat}
    (htake : c.region.take? (c.chain side).kind = some (region, h)) :
    Drawn r l (c.turned side region h) := by
  obtain ⟨l₀, hf, hperm⟩ := hd.frees
  rw [hd.kind side] at htake
  obtain ⟨l', rfl, hf', halike, hnew, hother⟩ := CodePages.take?_some hf (Side.kind_ne side).1 htake
  have hregion : (c.turned side region h).region = region := by
    simp [Code.turned]
  have hfree : ∀ side' j, j ∈ (c.chain side').pages → j ≠ h := by
    rintro side' j hj rfl
    have hused := hd.used side' j hj
    exact (Side.kind_ne side').1 ((hf.mem_iff hused).mp List.mem_cons_self)
  refine ⟨⟨l', by rwa [hregion], ?_⟩, fun side' => ?_, fun side' j hj => ?_,
    fun j hj => ?_, ?_, ?_, ?_, ?_⟩
  · refine List.Perm.trans ?_ hperm
    cases side with
    | main =>
      show ((c.main.pages.push h).toList ++ c.exits.pages.toList ++ l').Perm _
      simp only [Array.toList_push, List.append_assoc]
      refine List.Perm.append_left _ ?_
      exact (List.perm_append_comm_assoc [h] _ _).trans (by simp)
    | exits =>
      show (c.main.pages.toList ++ (c.exits.pages.push h).toList ++ l').Perm _
      simp
  · rw [(pages_turned c side side' region h).2]
    exact hd.kind side'
  · rw [(pages_turned c side side' region h).1] at hj
    rw [hregion]
    by_cases hside : side' = side
    · subst hside
      rw [if_pos rfl, Array.mem_push] at hj
      rcases hj with hj | rfl
      · rw [hother j (hfree side' j hj)]
        exact hd.used side' j hj
      · exact hnew
    · rw [if_neg hside] at hj
      rw [hother j (hfree side' j hj)]
      exact hd.used side' j hj
  · rw [hregion, hother j, hd.others j hj]
    rintro rfl
    exact hj (hperm.subset (by simp))
  all_goals rw [hregion]
  · exact halike.size.trans hd.size
  · exact halike.pageSize.trans hd.pageSize
  · exact halike.bailout.trans hd.bailout
  · exact halike.last.trans hd.last

/-- Writing code draws pages from those that are free. -/
theorem drawn_moves (r : CodePages) (l : List Nat) (b : Backend) :
    Moves (Preserves (Drawn r l)) b where
  write _ _ hd := hd.written _ _ _
  turn htake hd := hd.turned htake

/-- Giving up returns every page. -/
theorem Drawn.abandon (hd : Drawn r l c) (hl : l.Nodup) :
    ∃ region l', c.abandon = (region, none) ∧ region.Frees l' ∧ l'.Perm l ∧
      CodePages.Alike c.region region ∧ ∀ h, h ∉ l → region.pages[h]? = r.pages[h]? := by
  obtain ⟨l₀, hf, hperm⟩ := hd.frees
  have hnodup := hperm.nodup_iff.mpr hl
  have hused : ∀ h ∈ c.main.pages.toList ++ c.exits.pages.toList,
      ∃ p, c.region.pages[h]? = some p ∧ p.kind ≠ .free ∧ p.kind ≠ .bailout := by
    intro h hh
    rcases List.mem_append.mp hh with hh | hh
    · exact ⟨_, hd.used .main h (Array.mem_toList_iff.mp hh), Side.kind_ne .main⟩
    · exact ⟨_, hd.used .exits h (Array.mem_toList_iff.mp hh), Side.kind_ne .exits⟩
  obtain ⟨region, hall, hf', halike, hother⟩ :=
    CodePages.releaseAll_ok hf (List.nodup_append.mp hnodup).1 hused
  refine ⟨region, _, ?_, hf', ?_, halike, fun h hh => ?_⟩
  · rw [Code.abandon, hall]
  · exact ((List.reverse_perm _).append_right _).trans hperm
  · rw [hother h fun hin => hh (hperm.subset (List.mem_append_left _ hin)), hd.others h hh]

end Drawn

end Code

end LoopTracer.Compile
