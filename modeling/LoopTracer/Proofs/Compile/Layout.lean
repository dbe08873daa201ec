import LoopTracer.Proofs.Compile.Chains
import LoopTracer.Proofs.Number.Narrowing

/-! Code in its pages.

In a region that is laid out, each chain writes to its own page and nobody writes to what is
written already. A place is open as long as something may still be written there: on a free page,
or below the cursor of a chain. Open places only become fewer, and the bytes of all others stay
(`Later`). So a jump that was written stays as it is (`Settled.later`). -/
namespace LoopTracer.Compile

open Machine

namespace CodePages

/-- The bytes of a page. -/
def bytes (r : CodePages) : Nat := r.pageSize.toNat

/-- The pages make up the memory. -/
structure Sized (r : CodePages) : Prop where
  positive : 0 < r.pageSize
  size : (r.mem.size : Int) = r.pages.size * r.pageSize
  whole : r.mem.size < 2 ^ 63
  valid : r.mem.Valid

/-- The pages make up the memory, and every address fits a branch. -/
structure Laid (r : CodePages) : Prop extends Sized r where
  small : r.mem.size < 2 ^ 31

variable {r : CodePages} {h : Nat}

theorem Sized.bytes_eq (hr : r.Sized) : (r.bytes : Int) = r.pageSize :=
  Int.toNat_of_nonneg (Int.le_of_lt hr.positive)

theorem Sized.bytes_pos (hr : r.Sized) : 0 < r.bytes := by
  have := hr.positive
  have := hr.bytes_eq
  omega

theorem Sized.size_eq (hr : r.Sized) : r.mem.size = r.pages.size * r.bytes := by
  have hsize := hr.size
  rw [← hr.bytes_eq] at hsize
  exact_mod_cast hsize

theorem Sized.page_le (hr : r.Sized) (hh : h < r.pages.size) : (h + 1) * r.bytes ≤ r.mem.size := by
  rw [hr.size_eq]
  exact Nat.mul_le_mul_right _ hh

/-- The range of a page inside the region. -/
theorem Sized.bounds (hr : r.Sized) {c : CodePages} (hsize : c.pageSize = r.pageSize)
    (hh : h < r.pages.size) :
    c.bounds h = (((h * r.bytes : Nat) : Int), (((h + 1) * r.bytes : Nat) : Int)) := by
  have hle := hr.page_le hh
  have hwhole := hr.whole
  have hmul : (h + 1) * r.bytes = h * r.bytes + r.bytes := Nat.succ_mul h r.bytes
  have hlow : (h : Int) * r.bytes = ((h * r.bytes : Nat) : Int) := (Int.natCast_mul h r.bytes).symm
  have hhigh : (h : Int) * r.bytes + r.bytes = (((h + 1) * r.bytes : Nat) : Int) := by
    rw [hlow, hmul, Int.natCast_add]
  unfold CodePages.bounds
  rw [hsize, ← hr.bytes_eq, hhigh, hlow, signed64_eq (by omega) (by omega),
    signed64_eq (by omega) (by omega)]

/-- Only the size of the memory matters for the layout. -/
theorem Laid.rewritten (hr : r.Laid) {mem : Memory} (hsize : mem.size = r.mem.size)
    (hvalid : mem.Valid)
    (bailout : CodeAddr) : CodePages.Laid { r with mem, bailout } where
  positive := hr.positive
  size := hsize ▸ hr.size
  whole := hsize ▸ hr.whole
  valid := hvalid
  small := hsize ▸ hr.small

end CodePages

/-! ### Writers -/

/-- What a writer inside the memory does: it puts some bytes in front of its cursor, those of the
request if there was no fault. -/
theorem emit_cases {b : Backend} {w w' : Writer} {mem mem' : Memory} {i : Instr}
    {fault : Option Fault}
    (hlow : 0 ≤ w.low) (hcursor : w.low ≤ w.cursor) (hsize : w.cursor ≤ mem.size)
    (hwhole : mem.size < 2 ^ 63)
    (h : w.emit b mem i = (w', mem', fault)) :
    ∃ bytes : List UInt8, w' = { w with cursor := w.cursor - bytes.length } ∧ w.low ≤ w'.cursor ∧
      mem' = mem.write w'.cursor.toNat bytes ∧ (fault = none → b.encode w.pos i = .ok bytes) := by
  have hfree : w.free = w.cursor - w.low := signed64_eq (by omega) (by omega)
  unfold Writer.emit at h
  split at h
  · cases h
    exact ⟨[], by simp, hcursor, rfl, nofun⟩
  · next hencode =>
    cases h
    exact ⟨[], by simp, hcursor, rfl, fun _ => hencode⟩
  · next bytes _ hencode =>
    unfold Writer.prepend at h
    split at h
    · cases h
      exact ⟨[], by simp, hcursor, rfl, nofun⟩
    · next hroom =>
      dsimp only at h
      rw [if_neg (by simp only [Bool.or_eq_true, decide_eq_true_eq]; omega)] at h
      cases h
      exact ⟨bytes, rfl, by dsimp only; omega, rfl, fun _ => hencode⟩

/-! ### A new region -/

theorem CodePages.create_eq {count pageSize : Int} {native : Bool} {r : CodePages}
    (h : create count pageSize native = .ok r) : 2 ≤ count ∧
      r = reset { mem := { size := (signed64 (count * pageSize)).toNat }, pageSize,
                  pages := fresh count.toNat } := by
  unfold create at h
  by_cases hcount : count < 2
  · rw [if_pos hcount] at h
    cases h
  · refine ⟨Int.not_lt.mp hcount, ?_⟩
    rw [if_neg hcount] at h
    dsimp only [bind, Except.bind] at h
    split at h
    · split at h
      · cases h
      · split at h <;> cases h
        rfl
    · split at h
      · cases h
      · split at h <;> cases h
        rfl

theorem CodePages.laid_create {count pageSize : Int} {native : Bool} {r : CodePages}
    (h : create count pageSize native = .ok r) (hpage : 0 < pageSize)
    (hsmall : count * pageSize < 2 ^ 31) : r.Laid := by
  obtain ⟨hcount, rfl⟩ := create_eq h
  have hpos : 0 ≤ count * pageSize := Int.mul_nonneg (by omega) (Int.le_of_lt hpage)
  have hsize : signed64 (count * pageSize) = count * pageSize := signed64_eq (by omega) (by omega)
  have hsmall' : (signed64 (count * pageSize)).toNat < 2 ^ 31 := by omega
  refine ⟨⟨hpage, ?_, Nat.lt_trans hsmall' (by decide), Memory.valid_blank _⟩, hsmall'⟩
  show (((signed64 (count * pageSize)).toNat : Nat) : Int) =
    ((fresh (fresh count.toNat).size).size : Nat) * pageSize
  rw [fresh_size, fresh_size, hsize, Int.toNat_of_nonneg hpos, Int.toNat_of_nonneg (by omega)]

/-- The shared exit code is written to the first page. -/
theorem CodePages.installBailout_eq {b : Backend} {r r' : CodePages}
    (h : installBailout b r = .ok () r') :
    ∃ mem bailout, r' = { r with mem, bailout } ∧ (r.Laid → 0 < r.pages.size → r'.Laid) := by
  unfold installBailout at h
  dsimp only at h
  split at h
  · cases h
  · next w mem hemit =>
    cases h
    refine ⟨mem, w.pos, rfl, fun hr hsome => ?_⟩
    have hone : r.pageSize ≤ r.mem.size := by
      have := hr.page_le hsome
      rw [← hr.bytes_eq]
      omega
    obtain ⟨bytes, rfl, -, rfl, -⟩ :=
      emit_cases (Int.le_refl 0) (Int.le_of_lt hr.positive) hone hr.whole hemit
    exact hr.rewritten (Memory.size_write ..) (Memory.write_valid hr.valid _ _) _

namespace Code

/-- Whether something may still be written at a place, in pages of `n` bytes. -/
def Open (n : Nat) (c : Code) (a : Nat) : Prop :=
  (∃ p, c.region.pages[a / n]? = some p ∧ p.kind = .free) ∨
    ∃ side w, (c.chain side).writer = some w ∧ w.low ≤ a ∧ (a : Int) < w.cursor

/-- Where the first page of a chain ends, once something is written there. -/
def Tops (c : Code) (side : Side) (stop : CodeAddr) : Prop :=
  (∃ r, (c.chain side).ranges[0]? = some r ∧ r.stop = stop) ∨
    (c.chain side).ranges = #[] ∧ UInt32.ofInt (c.chain side).high = stop ∧
      ∃ w, (c.chain side).writer = some w ∧ w.cursor < (c.chain side).high

/-- The chains lie in their pages, and only those pages were written to. -/
structure Tidy (r : CodePages) (l : List Nat) (c : Code) : Prop where
  drawn : Drawn r l c
  size : c.region.mem.size = r.mem.size
  valid : c.region.mem.Valid
  confined : ∀ a, (∀ side, a / r.bytes ∉ (c.chain side).pages) → c.region.mem.get? a = r.mem.get? a
  writer : ∀ side w, (c.chain side).writer = some w → ∃ h ∈ (c.chain side).pages,
    w.low = (h * r.bytes : Nat) ∧ w.low ≤ w.cursor ∧ w.cursor ≤ ((h + 1) * r.bytes : Nat) ∧
      (c.chain side).high = ((h + 1) * r.bytes : Nat)

/-- What is written stays as it is. -/
structure Later (n : Nat) (c c' : Code) : Prop where
  closed : ∀ a, ¬ c.Open n a → ¬ c'.Open n a ∧ c'.region.mem.get? a = c.region.mem.get? a
  size : c'.region.mem.size = c.region.mem.size
  pages : ∀ side, ∀ h ∈ (c.chain side).pages, h ∈ (c'.chain side).pages
  tops : ∀ side stop, c.Tops side stop → c'.Tops side stop

theorem Later.refl (n : Nat) (c : Code) : Later n c c :=
  ⟨fun _ h => ⟨h, rfl⟩, rfl, fun _ _ h => h, fun _ _ h => h⟩

theorem Later.trans {n : Nat} {c c' c'' : Code} (h : Later n c c')
    (h' : Later n c' c'') : Later n c c'' where
  closed a ha :=
    let ⟨ha', hsame⟩ := h.closed a ha
    let ⟨ha'', hsame'⟩ := h'.closed a ha'
    ⟨ha'', hsame'.trans hsame⟩
  size := h'.size.trans h.size
  pages side j hj := h'.pages side j (h.pages side j hj)
  tops side stop ht := h'.tops side stop (h.tops side stop ht)

/-- From tidy chains writing leads to tidy chains, and what is written stays. -/
def Advances (r : CodePages) (l : List Nat) (c c' : Code) : Prop :=
  Tidy r l c → Tidy r l c' ∧ Later r.bytes c c'

instance (r : CodePages) (l : List Nat) : IsPreorder Code (Advances r l) where
  refl c ht := ⟨ht, .refl _ c⟩
  trans _ _ _ h h' ht :=
    let ⟨ht', hl⟩ := h ht
    let ⟨ht'', hl'⟩ := h' ht'
    ⟨ht'', hl.trans hl'⟩

variable {b : Backend} {r : CodePages} {l : List Nat} {side : Side} {c c' : Code} {w : Writer}

theorem div_eq_page {n h a : Nat} (hlow : h * n ≤ a) (hhigh : a < (h + 1) * n) : a / n = h :=
  Nat.div_eq_of_lt_le hlow hhigh

theorem Drawn.page_lt (hd : Drawn r l c) {h : Nat}
    (hh : h ∈ (c.chain side).pages) : h < r.pages.size :=
  hd.size ▸ (Array.getElem?_eq_some_iff.mp (hd.used side h hh)).1

theorem Drawn.page_mem (hd : Drawn r l c) {h : Nat} (hh : h ∈ (c.chain side).pages) : h ∈ l := by
  obtain ⟨l', -, hperm⟩ := hd.frees
  refine hperm.subset ?_
  cases side with
  | main => exact List.mem_append_left _ (List.mem_append_left _ (Array.mem_toList_iff.mpr hh))
  | exits => exact List.mem_append_left _ (List.mem_append_right _ (Array.mem_toList_iff.mpr hh))

/-- Only pages that were free in `r` were written to. -/
theorem Tidy.outside (ht : Tidy r l c) (a : Nat) (ha : a / r.bytes ∉ l) :
    c.region.mem.get? a = r.mem.get? a :=
  ht.confined a fun _ hin => ha (ht.drawn.page_mem hin)

theorem chain_written (c : Code) (side side' : Side) (w : Writer) (mem : Memory) :
    (c.written side w mem).chain side' =
      if side' = side then { c.chain side with writer := some w } else c.chain side' := by
  cases side <;> cases side' <;> rfl

@[simp] theorem region_written (c : Code) (side : Side) (w : Writer) (mem : Memory) :
    (c.written side w mem).region = { c.region with mem } := region_withChain ..

/-- Writing a request keeps chains tidy. -/
theorem Tidy.written (hr : r.Sized) (ht : Tidy r l c) (hw : (c.chain side).writer = some w)
    {i : Instr} {w' : Writer}
    {mem : Memory} {fault : Option Fault} (hemit : w.emit b c.region.mem i = (w', mem, fault)) :
    Tidy r l (c.written side w' mem) ∧ Later r.bytes c (c.written side w' mem) := by
  obtain ⟨h, hh, hlow, hcursor, hpage, hhigh⟩ := ht.writer side w hw
  have hend := hr.page_le (ht.drawn.page_lt hh)
  have hwhole := hr.whole
  have hsize := ht.size
  obtain ⟨bytes, rfl, hlow', rfl, -⟩ := emit_cases (by omega) hcursor (by omega) (by omega) hemit
  dsimp only at hlow' ⊢
  -- the bytes written lie between the new cursor and the old one
  have hget : ∀ a : Nat, ¬ (w.low ≤ a ∧ (a : Int) < w.cursor) →
      (c.region.mem.write (w.cursor - bytes.length).toNat bytes).get? a = c.region.mem.get? a := by
    intro a ha
    rw [Memory.get?_write ht.valid (by omega), if_neg (by omega)]
  refine ⟨⟨ht.drawn.written side _ _, ?_, ?_, fun a ha => ?_, fun side' w' hw' => ?_⟩,
    ⟨fun a ha => ⟨fun hopen => ha ?_, ?_⟩, ?_, fun side' j hj => ?_, fun side' stop htop => ?_⟩⟩
  · simpa using ht.size
  · simpa using Memory.write_valid ht.valid _ _
  · rw [region_written]
    simp only [(pages_written c side _ _ _).1] at ha
    refine (hget a fun hin => ha side ?_).trans (ht.confined a ha)
    rw [div_eq_page (h := h) (by omega) (by omega)]
    exact hh
  · rw [chain_written] at hw' ⊢
    by_cases hside : side' = side
    · subst hside
      rw [if_pos rfl] at hw' ⊢
      cases hw'
      exact ⟨h, hh, hlow, hlow', by dsimp only; omega, hhigh⟩
    · rw [if_neg hside] at hw' ⊢
      exact ht.writer side' w' hw'
  · rcases hopen with hfree | ⟨side', w', hw', hin⟩
    · exact .inl (by simpa using hfree)
    · rw [chain_written] at hw'
      by_cases hside : side' = side
      · subst hside
        rw [if_pos rfl] at hw'
        cases hw'
        exact .inr ⟨side', w, hw, hin.1, by dsimp only at hin; omega⟩
      · rw [if_neg hside] at hw'
        exact .inr ⟨side', w', hw', hin⟩
  · rw [region_written]
    exact hget a fun hin => ha (.inr ⟨side, w, hw, hin⟩)
  · simp
  · rw [chain_written]
    by_cases hside : side' = side
    · rw [if_pos hside]
      exact hside ▸ hj
    · rwa [if_neg hside]
  · unfold Tops at htop ⊢
    rw [chain_written]
    by_cases hside : side' = side
    · subst hside
      rw [if_pos rfl]
      refine htop.imp_right fun ⟨hranges, hstop, w₀, hw₀, hlt⟩ => ⟨hranges, hstop, _, rfl, ?_⟩
      rw [hw] at hw₀
      cases hw₀
      dsimp only
      omega
    · rwa [if_neg hside]

theorem chain_turned (c : Code) (side side' : Side) (region : CodePages) (h : Nat)
    (hside : side' ≠ side) :
    (c.turned side region h).chain side' = c.chain side' := by
  cases side <;> cases side' <;> first | rfl | exact absurd rfl hside

@[simp] theorem region_turned (c : Code) (side : Side) (region : CodePages) (h : Nat) :
    (c.turned side region h).region = region := region_withChain ..

/-- The range of a page that is taken. -/
theorem Drawn.bounds_take (hr : r.Sized) (hd : Drawn r l c) {region : CodePages} {h : Nat}
    (htake : c.region.take? (c.chain side).kind = some (region, h)) : h < r.pages.size ∧
      region.bounds h = (((h * r.bytes : Nat) : Int), (((h + 1) * r.bytes : Nat) : Int)) := by
  have hdrawn := hd.turned htake
  have hregion : (c.turned side region h).region = region := region_turned ..
  have hpage : h ∈ ((c.turned side region h).chain side).pages := by
    rw [(pages_turned c side side region h).1, if_pos rfl]
    exact Array.mem_push_self
  exact ⟨hdrawn.page_lt hpage, hr.bounds (hregion ▸ hdrawn.pageSize) (hdrawn.page_lt hpage)⟩

/-- Turning to a new page keeps chains tidy. -/
theorem Tidy.turned (hr : r.Sized) (ht : Tidy r l c) {region : CodePages} {h : Nat}
    (htake : c.region.take? (c.chain side).kind = some (region, h)) :
    Tidy r l (c.turned side region h) ∧ Later r.bytes c (c.turned side region h) := by
  have hdrawn := ht.drawn.turned htake
  obtain ⟨l₀, hf, hperm⟩ := ht.drawn.frees
  have htake' := htake
  rw [ht.drawn.kind side] at htake'
  obtain ⟨l', rfl, -, halike, hnew, hother⟩ := CodePages.take?_some hf (Side.kind_ne side).1 htake'
  have hmem : region.mem = c.region.mem := halike.mem
  have hpage : h ∈ ((c.turned side region h).chain side).pages := by
    rw [(pages_turned c side side region h).1, if_pos rfl]
    exact Array.mem_push_self
  obtain ⟨hlt, hbounds⟩ := ht.drawn.bounds_take hr htake
  have hwriter : ((c.turned side region h).chain side).writer =
      some { low := (h * r.bytes : Nat), cursor := ((h + 1) * r.bytes : Nat) } := by
    simp [Code.turned, blankPage, hbounds]
  have hhigh : ((c.turned side region h).chain side).high = ((h + 1) * r.bytes : Nat) := by
    simp [Code.turned, hbounds]
  have hle : h * r.bytes ≤ (h + 1) * r.bytes := Nat.mul_le_mul_right _ (Nat.le_succ h)
  refine ⟨⟨hdrawn, ?_, ?_, fun a ha => ?_, fun side' w' hw' => ?_⟩,
    ⟨fun a ha => ⟨fun hopen => ha ?_, ?_⟩, ?_, fun side' j hj => ?_, fun side' stop htop => ?_⟩⟩
  · rw [region_turned, hmem]
    exact ht.size
  · rw [region_turned, hmem]
    exact ht.valid
  · rw [region_turned, hmem]
    refine ht.confined a fun side' hin => ha side' ?_
    rw [(pages_turned c side side' region h).1]
    split
    · exact Array.mem_push_of_mem h hin
    · exact hin
  · by_cases hside : side' = side
    · subst hside
      rw [hwriter] at hw'
      cases hw'
      exact ⟨h, hpage, rfl, by dsimp only; omega, Int.le_refl _, hhigh⟩
    · rw [chain_turned c side side' region h hside] at hw' ⊢
      exact ht.writer side' w' hw'
  · rcases hopen with ⟨p, hp, hfree⟩ | ⟨side', w', hw', hin⟩
    · rw [region_turned] at hp
      have hne : a / r.bytes ≠ h := by
        rintro hah
        rw [hah, hnew] at hp
        cases hp
        exact (Side.kind_ne side).1 hfree
      rw [hother _ hne] at hp
      exact .inl ⟨p, hp, hfree⟩
    · by_cases hside : side' = side
      · subst hside
        rw [hwriter] at hw'
        cases hw'
        -- the new page was free
        obtain ⟨p, hp, hfree⟩ := hf.linked.kind List.mem_cons_self
        refine .inl ⟨p, ?_, hfree⟩
        dsimp only at hin
        rw [div_eq_page (h := h) (by omega) (by omega)]
        exact hp
      · rw [chain_turned c side side' region h hside] at hw'
        exact .inr ⟨side', w', hw', hin⟩
  · rw [region_turned, hmem]
  · rw [region_turned, hmem]
  · by_cases hside : side' = side
    · subst hside
      rw [(pages_turned c side' side' region h).1, if_pos rfl]
      exact Array.mem_push_of_mem _ hj
    · rwa [chain_turned c side side' region h hside]
  · by_cases hside : side' = side
    · subst hside
      refine .inl ?_
      rcases htop with ⟨x, hx, hstop⟩ | ⟨hranges, hstop, w₀, hw₀, -⟩
      · refine ⟨x, ?_, hstop⟩
        simp only [Code.turned, chain_withChain]
        have hpos := (Array.getElem?_eq_some_iff.mp hx).1
        cases (c.chain side').writer with
        | none => exact hx
        | some old =>
          dsimp only
          rw [Array.getElem?_push_lt hpos, ← hx, Array.getElem?_eq_getElem hpos]
      · refine ⟨⟨w₀.pos, UInt32.ofInt (c.chain side').high⟩, ?_, hstop⟩
        simp [Code.turned, hw₀, hranges]
    · unfold Tops at htop ⊢
      rwa [chain_turned c side side' region h hside]

/-- Writing code advances. -/
theorem advances_moves (hr : r.Sized) (l : List Nat) (b : Backend) : Moves (Advances r l) b where
  write hw hemit ht := ht.written hr hw hemit
  turn htake ht := ht.turned hr htake

/-! ### Jumps that were written -/

/-- At `site`, on a page of a chain, there is a jump to `target`, and nothing more is written
there. -/
structure Settled (b : Backend) (n : Nat) (c : Code) (side : Side)
    (site target : CodeAddr) : Prop where
  page : ∃ h ∈ (c.chain side).pages, h * n ≤ site.toNat ∧ site.toNat + b.jumpLength ≤ (h + 1) * n
  jumps : Jumps b c.region.mem site target
  closed : ∀ a, site.toNat ≤ a → a < site.toNat + b.jumpLength → ¬ c.Open n a

/-- A jump that was written stays. -/
theorem Settled.later {n : Nat} {site target : CodeAddr} (h : Settled b n c side site target)
    (hl : Later n c c') : Settled b n c' side site target where
  page :=
    let ⟨j, hj, hin⟩ := h.page
    ⟨j, hl.pages side j hj, hin⟩
  jumps := h.jumps.congr hl.size fun a hlow hhigh => (hl.closed a (h.closed a hlow hhigh)).2
  closed a hlow hhigh := (hl.closed a (h.closed a hlow hhigh)).1

/-- Different chains write to different pages. -/
theorem Drawn.page_side (hd : Drawn r l c) {side' : Side} {h : Nat} (hh : h ∈ (c.chain side).pages)
    (hh' : h ∈ (c.chain side').pages) : side = side' := by
  have h₁ := hd.used side h hh
  rw [hd.used side' h hh'] at h₁
  exact Side.kind_inj (congrArg CodePage.kind (Option.some.inj h₁)).symm

/-- A request is written in front of the cursor, on the page of the chain, where something might
still be written; nothing more is written there. -/
theorem write_placed (hr : r.Laid) (ht : Tidy r l c)
    (hw : (c.chain side).writer = some w) {i : Instr}
    (h : write b side w i c = .ok () c') :
    ∃ (j place : Nat) (bytes : List UInt8), j ∈ (c.chain side).pages ∧
      j * r.bytes ≤ place ∧ w.cursor = (place + bytes.length : Nat) ∧
      place + bytes.length ≤ (j + 1) * r.bytes ∧
      w.low = (j * r.bytes : Nat) ∧ b.encode w.pos i = .ok bytes ∧
      c' = c.written side { w with cursor := place } (c.region.mem.write place bytes) ∧
      c'.region.mem.Shows place bytes ∧ ∀ a, place ≤ a → a < place + bytes.length →
      c.Open r.bytes a ∧ ¬ c'.Open r.bytes a := by
  obtain ⟨w', mem, hemit, rfl⟩ := write_ok h
  obtain ⟨j, hj, hlow, hcursor, hpage, -⟩ := ht.writer side w hw
  have hend := hr.page_le (ht.drawn.page_lt hj)
  have hsmall := hr.small
  have hsize := ht.size
  obtain ⟨bytes, rfl, hlow', rfl, hencode⟩ :=
    emit_cases (by omega) hcursor (by omega) (by omega) hemit
  dsimp only at hlow' ⊢
  obtain ⟨place, hplace⟩ : ∃ place : Nat, w.cursor - bytes.length = place :=
    ⟨_, (Int.toNat_of_nonneg (by omega)).symm⟩
  rw [hplace, Int.toNat_natCast]
  refine ⟨j, place, bytes, hj, by omega, by omega, by omega, hlow, hencode rfl, rfl, ?_,
    fun a hfrom hto => ⟨?_, fun hopen => ?_⟩⟩
  · rw [region_written]
    exact Memory.shows_write ht.valid (by omega)
  · exact .inr ⟨side, w, hw, by omega, by omega⟩
  · have hdiv : a / r.bytes = j := div_eq_page (by omega) (by omega)
    rcases hopen with ⟨p, hp, hfree⟩ | ⟨side', w₀, hw₀, hin⟩
    · rw [region_written, hdiv, ht.drawn.used side j hj] at hp
      cases hp
      exact (Side.kind_ne side).1 hfree
    · rw [chain_written] at hw₀
      by_cases hside : side' = side
      · rw [if_pos hside] at hw₀
        cases hw₀
        dsimp only at hin
        omega
      · rw [if_neg hside] at hw₀
        obtain ⟨j', hj', hlow₀, hcursor₀, hpage₀, -⟩ := ht.writer side' w₀ hw₀
        have hdiv' : a / r.bytes = j' := div_eq_page (by omega) (by omega)
        exact hside (ht.drawn.page_side (hdiv'.symm.trans hdiv ▸ hj') hj)

/-- A jump is written where nothing was. -/
theorem write_jump (hr : r.Laid) (ht : Tidy r l c) (hw : (c.chain side).writer = some w)
    {target : CodeAddr}
    (h : write b side w (.jump target) c = .ok () c') :
    Settled b r.bytes c' side (b.branchSite w.pos (.jump target)) target ∧
      (∃ w', (c'.chain side).writer = some w' ∧ w'.cursor < w.cursor) ∧
      ∀ a, (b.branchSite w.pos (.jump target)).toNat ≤ a →
        a < (b.branchSite w.pos (.jump target)).toNat + b.jumpLength → c.Open r.bytes a := by
  obtain ⟨j, place, bytes, hj, hfrom, hcursor, hto, -, hencode, rfl, hshows, hclosed⟩ :=
    write_placed hr ht hw h
  have hend := hr.page_le (ht.drawn.page_lt hj)
  have hsmall := hr.small
  have hsize := ht.size
  have hbytes : bytes = b.jumpBytes (b.branchSite w.pos (.jump target)) target := by
    rw [encode_jump] at hencode
    exact (Except.ok.inj hencode).symm
  have hlength : bytes.length = b.jumpLength := hbytes ▸ b.length_jumpBytes _ _
  have hpos : w.pos.toNat = w.cursor.toNat := toNat_ofInt (by omega) (by omega)
  have hsite : (b.branchSite w.pos (.jump target)).toNat = place := by
    rw [toNat_branchSite (by omega), hpos]
    omega
  have hpositive : 0 < b.jumpLength := by cases b <;> decide
  rw [hsite, ← hlength]
  refine ⟨⟨⟨j, ?_, by omega, by omega⟩, ⟨?_, ?_⟩, fun a hfrom hto => ?_⟩,
    ⟨{ w with cursor := place }, ?_, ?_⟩,
    fun a hfrom hto => (hclosed a hfrom hto).1⟩
  · rw [(pages_written c side side _ _).1]
    exact hj
  · rw [region_written, Memory.size_write]
    omega
  · rw [hsite, ← hbytes]
    exact hshows
  · exact (hclosed a (by omega) (by omega)).2
  · rw [chain_written, if_pos rfl]
  · dsimp only
    omega

theorem emitBranch_jump (hr : r.Laid) (ht : Tidy r l c) {target site : CodeAddr}
    (h : emitBranch b side (.jump target) c = .ok site c') :
    Tidy r l c' ∧ Later r.bytes c c' ∧ Settled b r.bytes c' side site target ∧
      ∀ a, site.toNat ≤ a → a < site.toNat + b.jumpLength → c.Open r.bytes a := by
  have hmoves := advances_moves hr.toSized l b
  obtain ⟨w, c₁, hensure, hrest⟩ := bind_eq_ok h
  obtain ⟨u, c₂, hwrite, hrest⟩ := bind_eq_ok hrest
  cases hrest
  have hw := ensure_writer hensure
  obtain ⟨ht₁, hl₁⟩ := (hmoves.ensure side).ok hensure ht
  obtain ⟨ht₂, hl₂⟩ := (keepsAt_ok hwrite).mp (hmoves.writes hw _) ht₁
  obtain ⟨hsettled, -, hopen⟩ := write_jump hr ht₁ hw hwrite
  refine ⟨ht₂, hl₁.trans hl₂, hsettled, fun a hlow hhigh => ?_⟩
  exact Classical.not_not.mp fun hclosed => (hl₁.closed a hclosed).1 (hopen a hlow hhigh)

/-- The first request of a chain ends where its first page does. -/
theorem emit_first (hr : r.Laid) (ht : Tidy r l c) (hnone : (c.chain side).writer = none)
    (hranges : (c.chain side).ranges = #[]) {target : CodeAddr}
    (h : emit b side (.jump target) c = .ok () c') :
    ∃ stop, Tops c' side stop ∧
    Settled b r.bytes c' side (b.branchSite stop (.jump target)) target := by
  obtain ⟨w, c₁, hensure, hwrite⟩ := bind_eq_ok h
  have hw := ensure_writer hensure
  obtain ⟨ht₁, -⟩ := ((advances_moves hr.toSized l b).ensure side).ok hensure ht
  obtain ⟨hsettled, ⟨w', hw', hlt⟩, -⟩ := write_jump hr ht₁ hw hwrite
  obtain ⟨w'', mem, -, rfl⟩ := write_ok hwrite
  rcases ensure_eq b side c
    with ⟨w₀, hw₀, -⟩ | ⟨-, heq⟩ | ⟨region, j, htake, ⟨-, heq⟩ | ⟨old, hw₀, -⟩⟩
  · rw [hnone] at hw₀
    cases hw₀
  · rw [hensure] at heq
    cases heq
  · rw [hensure] at heq
    cases heq
    refine ⟨_, .inr ⟨?_, ?_, w', hw', ?_⟩, hsettled⟩
    all_goals rw [chain_written, if_pos rfl]
    · simp [turned, hnone, hranges]
    · simp [turned, blankPage, Writer.pos]
    · simpa [turned, blankPage] using hlt
  · rw [hnone] at hw₀
    cases hw₀

/-- The first range of a chain ends where its first page does. -/
theorem finish_head (hr : r.Laid) (ht : Tidy r l c) {stop : CodeAddr} (htop : c.Tops side stop) :
    ∃ range, (c.chain side).finish.head? = some range ∧ range.stop = stop := by
  unfold Chain.finish
  rcases htop with ⟨range, hrange, hstop⟩ | ⟨hranges, hstop, w, hw, hlt⟩
  · have hhead : ∀ x : CodeRange, ((c.chain side).ranges.push x).toList.head? = some range := by
      intro x
      rw [Array.toList_push, List.head?_append, List.head?_eq_getElem?,
        Array.getElem?_toList, hrange]
      rfl
    have hhead' : (c.chain side).ranges.toList.head? = some range := by
      rw [List.head?_eq_getElem?, Array.getElem?_toList, hrange]
    refine ⟨range, ?_, hstop⟩
    repeat' split
    · exact hhead _
    · exact hhead'
    · exact hhead'
  · obtain ⟨h, hh, hlow, hcursor, hpage, -⟩ := ht.writer side w hw
    have hend := hr.page_le (ht.drawn.page_lt hh)
    have hsmall := hr.small
    have hpos : w.pos.toNat = w.cursor.toNat := toNat_ofInt (by omega) (by omega)
    rw [hw]
    dsimp only
    rw [if_pos (by omega), hranges]
    exact ⟨_, rfl, hstop⟩

end Code

end LoopTracer.Compile
