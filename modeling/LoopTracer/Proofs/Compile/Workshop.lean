import LoopTracer.Proofs.Compile.Assembled

/-! What compiling leaves behind, however it ends.

Compiling a fragment changes three things outside the code it writes: pages change their use
(`Tended`), numbers are given to guards, and the exits of the trace are told where their values are
(`Relocated`). Exits of other traces are not touched, and a constant that an exit refers to is one
of the trace. This holds for whatever the region was like before. -/
namespace LoopTracer.Compile

open Machine Trace

/-! ### Bytes -/

/-- Bytes are written into a memory. -/
structure Overwritten (mem mem' : Memory) : Prop where
  size : mem'.size = mem.size
  valid : mem.Valid → mem'.Valid

instance : IsPreorder Memory Overwritten where
  refl _ := ⟨rfl, id⟩
  trans _ _ _ h h' := ⟨h'.size.trans h.size, h'.valid ∘ h.valid⟩

theorem overwritten_write (mem : Memory) (place : Nat) (bytes : List UInt8) :
    Overwritten mem (mem.write place bytes) :=
  ⟨Memory.size_write mem place bytes, fun hm => Memory.write_valid hm place bytes⟩

theorem overwritten_patch {b : Backend} {mem mem' : Memory} {site target : CodeAddr}
    (h : b.patch mem site target = .ok mem') : Overwritten mem mem' := by
  cases b with
  | virtual =>
    unfold Backend.patch Virtual.patch at h
    dsimp only at h
    repeat' split at h
    all_goals cases h
    exact overwritten_write _ _ _
  | x64 =>
    unfold Backend.patch X64.patch at h
    dsimp only at h
    cases hb : X64.branchAt mem site with
    | error f =>
      rw [hb] at h
      cases h
    | ok x =>
      rw [hb] at h
      change (if mem.size < x.1.toNat + 4 then Except.error Fault.bounds else _) = _ at h
      split at h
      · cases h
      · cases h
        exact overwritten_write _ _ _

theorem overwritten_emit {b : Backend} {w w' : Writer} {mem mem' : Memory} {i : Instr}
    {fault : Option Fault}
    (h : w.emit b mem i = (w', mem', fault)) : Overwritten mem mem' := by
  unfold Writer.emit Writer.prepend at h
  dsimp only at h
  repeat' split at h
  all_goals cases h
  all_goals first
    | exact refl_of Overwritten mem
    | exact overwritten_write _ _ _

/-! ### Pages -/

namespace CodePages

/-- Pages with a chain of free ones are taken, given back or written to; there is a chain of free ones
after that, and how many pages there are and where they lie stays. -/
structure Tended (r r' : CodePages) : Prop where
  frees : (∃ l, r.Frees l) → ∃ l, r'.Frees l
  size : (∃ l, r.Frees l) → r'.pages.size = r.pages.size
  pageSize : (∃ l, r.Frees l) → r'.pageSize = r.pageSize
  last : (∃ l, r.Frees l) → r'.last = r.last
  memory : Overwritten r.mem r'.mem

instance : IsPreorder CodePages Tended where
  refl r := ⟨id, fun _ => rfl, fun _ => rfl, fun _ => rfl, refl_of _ r.mem⟩
  trans _ _ _ h h' := ⟨h'.frees ∘ h.frees, fun hl => (h'.size (h.frees hl)).trans (h.size hl),
    fun hl => (h'.pageSize (h.frees hl)).trans (h.pageSize hl), fun hl =>
      (h'.last (h.frees hl)).trans (h.last hl),
    trans_of _ h.memory h'.memory⟩

variable {r r' : CodePages}

theorem Alike.tended (h : Alike r r') (hf : (∃ l, r.Frees l) → ∃ l, r'.Frees l) : Tended r r' :=
  ⟨hf, fun _ => h.size, fun _ => h.pageSize, fun _ => h.last, h.mem ▸ refl_of Overwritten r.mem⟩

theorem tended_reset (r : CodePages) : Tended r r.reset :=
  (alike_reset r).tended fun _ => ⟨_, frees_reset r⟩

theorem Overwritten.tended {mem : Memory} (h : Overwritten r.mem mem) : Tended r { r with mem } :=
  ⟨fun ⟨l, hl⟩ => ⟨l, hl.congr rfl rfl rfl fun _ p hp => ⟨p, hp, rfl, rfl⟩⟩, fun _ => rfl,
    fun _ => rfl, fun _ => rfl, h⟩

theorem release_tended (h : Nat) : Keeps Tended (fun _ => True) (release h) := by
  intro r
  unfold KeepsAt release
  cases hp : r.pages[h]? with
  | none => exact ⟨refl_of Tended r, trivial⟩
  | some p =>
    by_cases hkind : (p.kind == .free || p.kind == .bailout) = true
    · simp only [hkind, if_true]
      exact ⟨refl_of Tended r, trivial⟩
    · simp only [hkind]
      refine Alike.tended ⟨rfl, rfl, rfl, rfl, by simp⟩ fun ⟨l, hl⟩ => ?_
      rw [Bool.or_eq_true, not_or, beq_iff_eq, beq_iff_eq] at hkind
      obtain ⟨r', hrelease, hl', -⟩ := release_ok hl hp hkind.1 hkind.2
      simp only [release, hp, beq_eq_false_iff_ne.mpr hkind.1,
        beq_eq_false_iff_ne.mpr hkind.2, Bool.or_self,
        Bool.false_eq_true, if_false] at hrelease
      cases hrelease
      exact ⟨_, hl'⟩

theorem releaseAll_tended (l : List Nat) : Keeps Tended (fun _ => True) (releaseAll l) :=
  .forM release_tended l

theorem handOver_tended (owner : FragmentId) (l : List Nat) :
    Keeps Tended (fun _ => True) (handOver owner l) := by
  refine .forM (fun h r => ?_) l
  unfold KeepsAt
  dsimp only
  by_cases hh : h < r.pages.size
  · rw [if_pos hh]
    refine Alike.tended ⟨rfl, rfl, rfl, rfl, by simp⟩ fun ⟨l, hl⟩ => ?_
    refine ⟨l, hl.congr rfl rfl (by simp) fun j p hp => ?_⟩
    by_cases hj : h = j <;> simp [Array.getElem?_modify, hj, hp]
  · rw [if_neg hh]
    exact ⟨refl_of Tended r, trivial⟩

/-- There is a chain of free pages, and unless the region was given up its memory is as large
as they say. -/
structure Ruled (r : CodePages) : Prop where
  frees : ∃ l, r.Frees l
  positive : 0 < r.pageSize
  size : r.last = none → r.mem.size = (signed64 (r.pages.size * r.pageSize)).toNat
  valid : r.mem.Valid

theorem Ruled.tended (h : r.Ruled) (ht : Tended r r') : r'.Ruled where
  frees := ht.frees h.frees
  positive := ht.pageSize h.frees ▸ h.positive
  size hlast := by
    rw [ht.memory.size, ht.size h.frees, ht.pageSize h.frees, h.size (ht.last h.frees ▸ hlast)]
  valid := ht.memory.valid h.valid

/-- A new region. -/
theorem ruled_create {count pageSize : Int} {native : Bool}
    (h : create count pageSize native = .ok r)
    (hpage : 0 < pageSize) : r.Ruled := by
  obtain ⟨hcount, rfl⟩ := create_eq h
  refine ⟨⟨_, frees_reset _⟩, hpage, fun _ => ?_, Memory.valid_blank _⟩
  show (signed64 (count * pageSize)).toNat =
    (signed64 (((fresh (fresh count.toNat).size).size : Nat) * pageSize)).toNat
  rw [fresh_size, fresh_size, Int.toNat_of_nonneg (by omega)]

/-- The region is given up. -/
theorem ruled_close (hr : r.Ruled) : r.close.1.Ruled :=
  ⟨hr.frees.imp fun _ hl => hl.congr rfl rfl rfl fun _ p hp => ⟨p, hp, rfl, rfl⟩, hr.positive,
    nofun, Memory.valid_blank 0⟩

/-- The shared exit code is written. -/
theorem installBailout_ruled {b : Backend} (h : installBailout b r = .ok () r')
    (hr : r.Ruled) : r'.Ruled := by
  unfold installBailout at h
  dsimp only at h
  split at h
  · cases h
  · next w mem hemit =>
    cases h
    have hruled := hr.tended (CodePages.Overwritten.tended (overwritten_emit hemit))
    exact ⟨hruled.frees.imp fun _ hl => hl.congr rfl rfl rfl fun _ p hp => ⟨p, hp, rfl, rfl⟩,
      hruled.positive, hruled.size,
      hruled.valid⟩

end CodePages

/-! ### Exits -/

/-- Exits from number `low` on may be told where their values are; the constants among these are
those of a trace. -/
structure Relocated (low : Nat) (b : Buffer) (x x' : Array ExitRecord) : Prop where
  size : x'.size = x.size
  below : ∀ n < low, x'[n]? = x[n]?
  record : ∀ (n : Nat) e', x'[n]? = some e' → ∃ e locations, x[n]? = some e ∧
    e' = { e with locations } ∧
    ∀ l ∈ locations, l ∈ e.locations ∨ ∀ v, l.place = .immediate v → Mentioned b v

instance (low : Nat) (b : Buffer) : IsPreorder (Array ExitRecord) (Relocated low b) where
  refl _ := ⟨rfl, fun _ _ => rfl, fun _ e he => ⟨e, e.locations, he, rfl, fun _ hl => .inl hl⟩⟩
  trans _ _ _ h h' := by
    refine ⟨h'.size.trans h.size, fun n hn => (h'.below n hn).trans (h.below n hn),
      fun n e₂ he₂ => ?_⟩
    obtain ⟨e₁, l₂, he₁, rfl, hl₂⟩ := h'.record n e₂ he₂
    obtain ⟨e, l₁, he, rfl, hl₁⟩ := h.record n e₁ he₁
    exact ⟨e, l₂, he, rfl, fun l hl => (hl₂ l hl).elim (hl₁ l) .inr⟩

theorem relocated_modify {low exit : Nat} {b : Buffer} (x : Array ExitRecord) (hlow : low ≤ exit)
    {locations : List SlotLocation}
    (hl : ∀ l ∈ locations, ∀ v, l.place = .immediate v → Mentioned b v) :
    Relocated low b x (x.modify exit ({ · with locations })) := by
  refine ⟨by simp, fun n hn => ?_, fun n e' he' => ?_⟩
  · rw [Array.getElem?_modify, if_neg (by omega)]
  · rw [Array.getElem?_modify] at he'
    split at he'
    · obtain ⟨e, he, rfl⟩ := Option.map_eq_some_iff.mp he'
      exact ⟨e, locations, he, rfl, fun l hl' => .inr (hl l hl')⟩
    · exact ⟨e', e'.locations, he', rfl, fun _ hl' => .inl hl'⟩

/-- The exits that a trace has, in its order. -/
def exitsOf (b : Buffer) : List SideExit := b.insts.toList.filterMap (·.exit)

/-- The exits among the first instructions. -/
def exitsBefore (b : Buffer) (k : Nat) : Nat := (b.insts.toList.take k).countP (·.exit.isSome)

theorem exitPlaces_fold (l : List Inst) (places : Array Nat) (n : Nat) :
    (l.foldl (fun (x : Array Nat × Nat) i => (x.1.push x.2, if i.exit.isSome then x.2 + 1 else x.2))
      (places, n)).1.toList =
      places.toList ++ (List.range l.length).map fun k =>
      n + (l.take k).countP (·.exit.isSome) := by
  induction l generalizing places n with
  | nil => exact (List.append_nil _).symm
  | cons j l ih =>
    have hstep : ∀ k, (if j.exit.isSome then n + 1 else n) + (l.take k).countP (·.exit.isSome) =
        n + ((j :: l).take (k + 1)).countP (·.exit.isSome) := by
      intro k
      rw [List.take_succ_cons, List.countP_cons]
      split <;> omega
    rw [List.foldl_cons, ih, Array.toList_push, List.append_assoc, List.length_cons,
      List.range_succ_eq_map, List.map_cons,
      List.map_map]
    simp only [hstep]
    rfl

/-- The place of an exit in the table: the exits before it have the places before. -/
theorem exitPlaces_get {b : Buffer} {base k : Nat} {i : Inst} (hi : b.insts[k]? = some i) :
    (exitPlaces b base)[k]?.getD 0 = base + exitsBefore b k := by
  have hlt := (Array.getElem?_eq_some_iff.mp hi).1
  rw [← Array.getElem?_toList, exitPlaces, ← Array.foldl_toList, exitPlaces_fold, List.nil_append,
    List.getElem?_map,
    List.getElem?_range (by simpa using hlt)]
  rfl

/-! ### Compiling -/

/-- Bytes are written and the exits of a trace are told where their values are. -/
structure Reworked (low : Nat) (b : Buffer) (s s' : Assembler) : Prop where
  memory : Overwritten s.alloc.code.region.mem s'.alloc.code.region.mem
  exits : Relocated low b s.exits s'.exits

instance (low : Nat) (b : Buffer) : IsPreorder Assembler (Reworked low b) where
  refl _ := ⟨refl_of _ _, refl_of _ _⟩
  trans _ _ _ h h' := ⟨trans_of _ h.memory h'.memory, trans_of _ h.exits h'.exits⟩

/-- The memory of the code is written to. -/
def Code.Rewritten (c c' : Code) : Prop := Overwritten c.region.mem c'.region.mem

instance : IsPreorder Code Code.Rewritten where
  refl c := refl_of Overwritten c.region.mem
  trans _ _ _ h h' := trans_of Overwritten h h'

theorem Code.rewritten_moves (b : Backend) : Code.Moves Code.Rewritten b where
  write _ hemit := by
    simpa [Code.Rewritten, Code.written] using overwritten_emit hemit
  turn htake := by
    unfold Code.Rewritten Code.turned
    rw [Code.region_withChain, CodePages.take?_mem htake]
    exact refl_of Overwritten _

namespace Assembler

variable {job : Job} {low : Nat}

theorem reworked_of_steady {s s' : Assembler} (h : Steady Code.Rewritten s s') :
    Reworked low job.set.buffer s s' :=
  ⟨h.code, h.exits ▸ refl_of (Relocated low job.set.buffer) s'.exits⟩

theorem leave_reworks {exit : Nat} (hlow : low ≤ exit) (cond : GuardCond) (reg : Reg)
    {locations : List SlotLocation}
    (hl : ∀ x ∈ locations, ∀ v, x.place = .immediate v → Mentioned job.set.buffer v) :
    Keeps (Reworked low job.set.buffer) Calm (leave job exit cond reg locations) := by
  have hm := Code.rewritten_moves job.limits.backend
  have lift : ∀ {α : Type} {x : Assembling α}, Keeps (Steady Code.Rewritten) Calm x →
      Keeps (Reworked low job.set.buffer) Calm x :=
        fun h => h.mono (fun _ _ => reworked_of_steady) fun _ he => he
  refine .bind (.modify fun s => ⟨refl_of _ _, relocated_modify s.exits hlow hl⟩) fun _ =>
    .bind .get fun s => ?_
  refine .bind (lift (exitCode_keeps hm _ _)) fun x => .bind (lift (emit_keeps hm _ _)) fun _ => ?_
  exact .modify fun s => ⟨refl_of _ _, refl_of _ _⟩

/-- Compiling writes bytes and tells the exits of its trace where their values are. -/
theorem wholeTrace_reworks (low : Nat) (hb : job.set.backend = job.limits.backend)
    (hlow : job.exitIndex = exitPlaces job.set.buffer low) :
    Keeps (Reworked low job.set.buffer) Calm (wholeTrace job) := by
  have hm := Code.rewritten_moves job.limits.backend
  have hsteady : ∀ s s', Steady Code.Rewritten s s' → Reworked low job.set.buffer s s' :=
    fun _ _ => reworked_of_steady
  refine wholeTrace_keeps hm hsteady
    (generateFrom_keeps hb hm hsteady _ (fun k i hi _ => ?_) fun _ _ _ => ?_)
    fun s site target _ => ?_
  · refine guard_keeps hb hm hsteady k i fun reg locations _ hl => leave_reworks ?_ _ reg hl
    rw [hlow, exitPlaces_get hi]
    exact Nat.le_add_right _ _
  · refine .bind .get fun s =>
      .bind ((coding_keeps (hm.emitBranch _ _)).mono hsteady fun _ he => he) fun _ => ?_
    exact .modify fun s => ⟨refl_of _ _, refl_of _ _⟩
  · unfold KeepsAt
    rw [patch_eq]
    cases hpatch : job.limits.backend.patch s.alloc.code.region.mem site target with
    | ok mem => exact ⟨overwritten_patch hpatch, refl_of _ _⟩
    | error f => exact ⟨refl_of _ s, tame_patch hpatch⟩

end Assembler

/-- Pages are tended, and the exits of a fragment's trace are told where their values are. -/
structure Restocked (f : Fragment) (shop shop' : Workshop) : Prop where
  region : CodePages.Tended shop.region shop'.region
  exits : Relocated f.exitBase (f.trace.getD {}) shop.exits shop'.exits

theorem Restocked.refl (f : Fragment) (shop : Workshop) : Restocked f shop shop :=
  ⟨refl_of _ _, refl_of _ _⟩

/-- However compiling ends, it leaves no more than that. -/
theorem assemble_restocks (limits : Limits) (helpers : HelperTable) (f : Fragment)
    (target : Option Fragment) :
    Keeps (Restocked f) (fun _ => True) (assemble limits helpers f target) := by
  intro shop
  rcases assemble_eq limits helpers f target shop with ⟨e, -, heq⟩ | ⟨buffer, htrace, -, heq⟩
  · exact (keepsAt_error heq).mpr ⟨.refl f shop, trivial⟩
  let job := jobOf limits helpers f target buffer
  have hb : job.set.backend = job.limits.backend := rfl
  have hworks := Assembler.wholeTrace_reworks f.exitBase hb rfl (startOf limits buffer shop)
  have hbuffer : f.trace.getD {} = job.set.buffer := by
    rw [htrace]
    rfl
  -- a chain of free pages is drawn from, whatever comes of it
  have hdrawn : ∀ l, shop.region.Frees l →
    KeepsAt (Preserves (Shaped job shop.region l shop.guardCount)) Calm
      (Assembler.wholeTrace job) (startOf limits buffer shop) :=
        fun l _ => Assembler.wholeTrace_shaped hb _
  have htended : ∀ s, (∀ l, shop.region.Frees l → Shaped job shop.region l shop.guardCount s) →
      Overwritten shop.region.mem s.alloc.code.region.mem →
          CodePages.Tended shop.region s.alloc.code.region := by
    intro s hs hmem
    refine ⟨fun ⟨l, hl⟩ => ?_, fun ⟨l, hl⟩ => ?_, fun ⟨l, hl⟩ => ?_, fun ⟨l, hl⟩ => ?_, hmem⟩
    all_goals obtain ⟨m, -, hw⟩ := hs l hl
    · exact hw.drawn.frees.imp fun _ h => h.1
    · exact hw.drawn.size
    · exact hw.drawn.pageSize
    · exact hw.drawn.last
  unfold KeepsAt
  rw [heq]
  cases hwhole : Assembler.wholeTrace job (startOf limits buffer shop) with
  | ok a s =>
    obtain ⟨hmem, hexits⟩ := (keepsAt_ok hwhole).mp hworks
    exact ⟨htended s (fun l hl => (keepsAt_ok hwhole).mp (hdrawn l hl) (shaped_start hl job)) hmem,
      hbuffer ▸ hexits⟩
  | error e s =>
    obtain ⟨⟨hmem, hexits⟩, -⟩ := (keepsAt_error hwhole).mp hworks
    have hregion :=
      htended s (fun l hl => ((keepsAt_error hwhole).mp (hdrawn l hl)).1 (shaped_start hl job)) hmem
    cases e with
    | fault fault => exact ⟨⟨hregion, hbuffer ▸ hexits⟩, trivial⟩
    | error e =>
      refine ⟨⟨trans_of _ hregion ?_, hbuffer ▸ hexits⟩, trivial⟩
      have hrelease := CodePages.releaseAll_tended
        (s.alloc.code.main.pages.toList ++ s.alloc.code.exits.pages.toList) s.alloc.code.region
      unfold KeepsAt at hrelease
      unfold Code.abandon
      cases hall : CodePages.releaseAll (s.alloc.code.main.pages.toList ++
        s.alloc.code.exits.pages.toList)
        s.alloc.code.region with
      | ok u region =>
        rw [hall] at hrelease
        exact hrelease
      | error fault region =>
        rw [hall] at hrelease
        exact hrelease.1

end LoopTracer.Compile
