import LoopTracer.Proofs.Compile.Room

/-! Code that goes on from page to page.

What is written to a chain is a list of pieces, the latest one first: the requests, and the jumps by
which a page goes on in the page before. `Follows` walks over them in memory from where the code
starts, from one piece to the next right behind it, or to where the jump leads. Writing keeps that a
chain is strung together in this way (`Strung`), so following the jumps only, its code is that of its
requests in reverse order, wherever the pages lie (`chains_transparent`). -/
namespace LoopTracer.Compile

open Machine

/-- Something that was written to a chain. -/
structure Piece where
  place : Nat
  bytes : List UInt8
  /-- The request; the jump that joins two pages is none. -/
  request : Option Instr

namespace Piece

/-- Where a piece ends. -/
def stop (p : Piece) : Nat := p.place + p.bytes.length

def Covers (p : Piece) (a : Nat) : Prop := p.place ≤ a ∧ a < p.stop

/-- The piece lies on a page of `n` bytes. -/
def Within (n h : Nat) (p : Piece) : Prop := h * n ≤ p.place ∧ p.stop ≤ (h + 1) * n

end Piece

def CodeRange.Covers (x : CodeRange) (a : Nat) : Prop := x.start.toNat ≤ a ∧ a < x.stop.toNat

/-- The end of a page of `n` bytes, which something was written to. -/
def CodeRange.Fills (n h : Nat) (x : CodeRange) : Prop :=
  h * n ≤ x.start.toNat ∧ x.start.toNat < x.stop.toNat ∧ x.stop.toNat = (h + 1) * n

/-- From a place on, memory holds the pieces: each is met where the one before it leads to, and the
last one leads to `stop`. A request leads to the byte behind it, a jump to its target. -/
def Follows (b : Backend) (mem : Memory) (stop : Nat) : Nat → List Piece → Prop
  | place, [] => place = stop
  | place, p :: rest => p.place = place ∧ mem.Shows place p.bytes ∧
    match p.request with
    | some i => b.encode (.ofNat p.stop) i = .ok p.bytes ∧ Follows b mem stop p.stop rest
    | none => ∃ site target : CodeAddr, site.toNat = place ∧ p.bytes = b.jumpBytes site target ∧
        Jumps b mem site target ∧ Follows b mem stop target.toNat rest

/-- Only the bytes of the pieces matter. -/
theorem Follows.congr {b : Backend} {mem mem' : Memory} {stop place : Nat} {pieces : List Piece}
    (h : Follows b mem stop place pieces) (hsize : mem'.size = mem.size)
    (hsame : ∀ p ∈ pieces, ∀ a, p.Covers a → mem'.get? a = mem.get? a) :
    Follows b mem' stop place pieces := by
  induction pieces generalizing place with
  | nil => exact h
  | cons p rest ih =>
    obtain ⟨rfl, hshows, hnext⟩ := h
    have hfirst := hsame p List.mem_cons_self
    refine ⟨rfl, hshows.congr fun a hlow hhigh => hfirst a ⟨hlow, hhigh⟩, ?_⟩
    have hrest := fun place h => @ih place h fun q hq => hsame q (List.mem_cons_of_mem _ hq)
    cases hrequest : p.request with
    | some i =>
      rw [hrequest] at hnext
      exact ⟨hnext.1, hrest _ hnext.2⟩
    | none =>
      rw [hrequest] at hnext
      obtain ⟨site, target, hsite, hbytes, hjumps, hnext⟩ := hnext
      refine ⟨site, target, hsite, hbytes,
        hjumps.congr hsize fun a hlow hhigh => hfirst a ⟨hsite ▸ hlow, ?_⟩,
        hrest _ hnext⟩
      rw [Piece.stop, hbytes, b.length_jumpBytes, ← hsite]
      exact hhigh

/-- The requests among pieces. -/
def requests (pieces : List Piece) : List Instr := pieces.filterMap (·.request)

theorem requests_cons (p : Piece) (pieces : List Piece) :
    requests (p :: pieces) = p.request.toList ++ requests pieces := by
  rw [requests, List.filterMap_cons]
  cases p.request <;> rfl

theorem requests_append (pieces later : List Piece) :
    requests (pieces ++ later) = requests pieces ++ requests later :=
  List.filterMap_append

/-- The ranges of a chain are those of the pages before and the written part of the present one. -/
theorem Chain.finish_some {x : Chain} {w : Writer} (hw : x.writer = some w) :
    x.finish = x.ranges.toList ++ if (w.pos.toNat : Int) < x.high
    then [⟨w.pos, UInt32.ofInt x.high⟩] else [] := by
  unfold finish
  rw [hw]
  dsimp only
  split
  · rw [Array.toList_push]
  · rw [List.append_nil]

namespace Code

variable {b : Backend} {r : CodePages} {l : List Nat} {side side' : Side} {c c' : Code}
  {w : Writer} {i : Instr}
  {n next : Nat} {pieces : List Piece}

/-- The pieces of a chain: they are followed from `next` on, lie on its pages and will stay, and
they make up its ranges and the written part of its present page. -/
structure Strung (b : Backend) (n : Nat) (c : Code) (side : Side) (next : Nat)
    (pieces : List Piece) : Prop where
  blank : (c.chain side).writer = none → pieces = [] ∧ (c.chain side).pages = #[] ∧
    (c.chain side).ranges = #[]
  current : ∀ w, (c.chain side).writer = some w → ∃ (older : List Nat) (h first place : Nat),
    (c.chain side).pages.toList = older ++ [h] ∧ (c.chain side).pages[0]? = some first ∧
      w.low = (h * n : Nat) ∧ w.cursor = place ∧ place ≤ (h + 1) * n ∧
        (c.chain side).high = ((h + 1) * n : Nat) ∧
      Follows b c.region.mem ((first + 1) * n) next pieces ∧
      List.Forall₂ (CodeRange.Fills n) older (c.chain side).ranges.toList ∧
      ∀ a, (∃ p ∈ pieces, p.Covers a) ↔
        (∃ x ∈ (c.chain side).ranges.toList, CodeRange.Covers x a) ∨ (place ≤ a ∧ a < (h + 1) * n)
  within : ∀ p ∈ pieces, p.bytes.length ≤ b.maxLength ∧ ∃ h ∈ (c.chain side).pages, p.Within n h
  closed : ∀ p ∈ pieces, ∀ a, p.Covers a → ¬ c.Open n a

/-- A chain that is left alone stays strung. -/
theorem Strung.later (h : Strung b n c side next pieces) (hl : Later n c c')
    (hchain : c'.chain side = c.chain side) :
    Strung b n c' side next pieces where
  blank := by
    rw [hchain]
    exact h.blank
  current w hw := by
    rw [hchain] at hw ⊢
    obtain ⟨older, j, first, place, hpages, hfirst, hlow, hcursor, hle, hhigh, hfollows,
      hranges, hcovers⟩ := h.current w hw
    exact ⟨older, j, first, place, hpages, hfirst, hlow, hcursor, hle, hhigh,
      hfollows.congr hl.size fun p hp a ha =>
        (hl.closed a (h.closed p hp a ha)).2, hranges, hcovers⟩
  within := by
    rw [hchain]
    exact h.within
  closed p hp a ha := (hl.closed a (h.closed p hp a ha)).1

/-- One more piece in front, from which the others are followed. -/
theorem Strung.written (h : Strung b r.bytes c side next pieces) (hr : r.Laid) (ht : Tidy r l c)
    (hw : (c.chain side).writer = some w) (hwrite : write b side w i c = .ok () c')
    (request : Option Instr)
    (hjoin : ∀ stop place bytes, w.cursor = (place + bytes.length : Nat) →
      place + bytes.length ≤ c'.region.mem.size →
      b.encode w.pos i = .ok bytes → c'.region.mem.Shows place bytes →
      Follows b c'.region.mem stop next pieces →
      Follows b c'.region.mem stop place (⟨place, bytes, request⟩ :: pieces)) :
    ∃ p : Piece, p.request = request ∧ Strung b r.bytes c' side p.place (p :: pieces) ∧
      (c'.chain side).writer = some { w with cursor := p.place } ∧ w.cursor = (p.stop : Nat) ∧
      (∀ a, p.Covers a → c.Open r.bytes a) ∧
      ∀ a, ¬ p.Covers a → c'.region.mem.get? a = c.region.mem.get? a := by
  obtain ⟨ht', hl⟩ := (keepsAt_ok hwrite).mp ((advances_moves hr.toSized l b).writes hw i) ht
  obtain ⟨j, place, bytes, hj, hfrom, hcursor, hto, hlow, hencode, rfl, hshows, hclosed⟩ :=
    write_placed hr ht hw hwrite
  have hend := hr.page_le (ht.drawn.page_lt hj)
  have hsize := ht.size
  have hsize' := ht'.size
  obtain ⟨older, k, first, place₀, hpages, hfirst, hlow₀, hcursor₀, -, hhigh, hfollows,
    hranges, hcovers⟩ := h.current w hw
  -- the page of the writer is the last one
  obtain rfl : j = k := by
    have := hr.bytes_pos
    exact Nat.eq_of_mul_eq_mul_right this (by omega)
  obtain rfl : place₀ = place + bytes.length := by omega
  refine ⟨⟨place, bytes, request⟩, rfl,
    ⟨fun hnone => ?_, fun w' hw' => ?_, fun p hp => ?_, fun p hp a ha => ?_⟩, ?_,
    hcursor, fun a ha => (hclosed a ha.1 ha.2).1, fun a ha => ?_⟩
  · rw [chain_written, if_pos rfl] at hnone
    cases hnone
  · rw [chain_written, if_pos rfl] at hw' ⊢
    cases hw'
    refine ⟨older, j, first, place, hpages, hfirst, hlow, rfl, by omega, hhigh, ?_,
      hranges, fun a => ?_⟩
    · refine hjoin _ place bytes hcursor (by omega) hencode hshows ?_
      exact hfollows.congr hl.size fun p hp a ha => (hl.closed a (h.closed p hp a ha)).2
    · rw [List.exists_mem_cons_iff, hcovers a]
      constructor
      · rintro (⟨hlow, hhigh⟩ | hold | hold)
        · exact .inr ⟨hlow, Nat.lt_of_lt_of_le hhigh hto⟩
        · exact .inl hold
        · exact .inr ⟨by omega, hold.2⟩
      · rintro (hold | ⟨hlow, hhigh⟩)
        · exact .inr (.inl hold)
        · by_cases hin : a < place + bytes.length
          · exact .inl ⟨hlow, hin⟩
          · exact .inr (.inr ⟨by omega, hhigh⟩)
  · rw [chain_written, if_pos rfl]
    rcases List.mem_cons.mp hp with rfl | hp
    · exact ⟨length_encode hencode, j, hj, hfrom, hto⟩
    · exact h.within p hp
  · rcases List.mem_cons.mp hp with rfl | hp
    · exact (hclosed a ha.1 ha.2).2
    · exact (hl.closed a (h.closed p hp a ha)).1
  · rw [chain_written, if_pos rfl]
  · rw [region_written, Memory.get?_write ht.valid (by omega)]
    exact if_neg ha

/-- A new page: what is written to it next leads to the pieces. -/
theorem Strung.turned (h : Strung b r.bytes c side next pieces) (hr : r.Laid)
    (hpage : 1024 ≤ r.pageSize) (ht : Tidy r l c)
    {region : CodePages} {j : Nat} (htake : c.region.take? (c.chain side).kind = some (region, j))
    (hroom : ∀ w, (c.chain side).writer = some w → w.free < room b)
    (hnone : (c.chain side).writer = none → next = (j + 1) * r.bytes) :
    Strung b r.bytes (c.turned side region j) side next pieces := by
  obtain ⟨-, hl⟩ := ht.turned hr.toSized htake
  obtain ⟨hlt, hbounds⟩ := ht.drawn.bounds_take hr.toSized htake
  have hmem : region.mem.size = c.region.mem.size := by simpa using hl.size
  have hold : ∀ p ∈ pieces, ∀ a, p.Covers a → region.mem.get? a = c.region.mem.get? a :=
    fun p hp a ha => by
    simpa using (hl.closed a (h.closed p hp a ha)).2
  refine ⟨fun hw => ?_, fun w hw => ?_, fun p hp => ?_,
    fun p hp a ha => (hl.closed a (h.closed p hp a ha)).1⟩
  · simp [Code.turned] at hw
  · have hw' : blankPage region j = w := by simpa [Code.turned] using hw
    subst hw'
    rw [region_turned]
    simp only [Code.turned, chain_withChain, blankPage, hbounds]
    cases hwriter : (c.chain side).writer with
    | none =>
      obtain ⟨rfl, hpages, hranges⟩ := h.blank hwriter
      rw [hpages, hranges]
      refine ⟨[], j, j, (j + 1) * r.bytes, rfl, rfl, rfl, rfl, Nat.le_refl _, rfl, hnone hwriter,
        .nil, fun a => ?_⟩
      simp
    | some old =>
      obtain ⟨older, k, first, place, hpages, hfirst, hlow, hcursor, hle, hhigh, hfollows,
          hranges, hcovers⟩ :=
        h.current old hwriter
      obtain ⟨hfrom, hlow', hwithin, hfree⟩ := ht.within hr hwriter
      have hsmall := hr.small
      have hsize := ht.size
      have hroom' := hroom old hwriter
      have hlength : room b ≤ 320 := by cases b <;> decide
      have hbytes := hr.toSized.bytes_eq
      have hmul : (k + 1) * r.bytes = k * r.bytes + r.bytes := Nat.succ_mul k r.bytes
      have hk : k < r.pages.size :=
        ht.drawn.page_lt (Array.mem_toList_iff.mp (by rw [hpages]; simp))
      have hend := hr.page_le hk
      have hstart : old.pos.toNat = place := by
        rw [Writer.pos, toNat_ofInt (by omega) (by omega)]
        omega
      have hstop : (UInt32.ofInt (c.chain side).high).toNat = (k + 1) * r.bytes := by
        rw [toNat_ofInt (by omega) (by omega)]
        omega
      refine ⟨older ++ [k], j, first, (j + 1) * r.bytes, ?_, ?_, rfl, rfl, Nat.le_refl _, rfl,
        ?_, ?_, fun a => ?_⟩
      · rw [Array.toList_push, hpages]
      · have hpos := (Array.getElem?_eq_some_iff.mp hfirst).1
        rw [Array.getElem?_push_lt hpos, ← hfirst, Array.getElem?_eq_getElem hpos]
      · exact hfollows.congr hmem hold
      · rw [Array.toList_push]
        refine List.rel_append hranges (.cons ⟨?_, ?_, hstop⟩ .nil)
        · rw [hstart]
          omega
        · -- a page is only left when little of it is
          rw [hstart, hstop]
          omega
      · simp only [hcovers a, Array.toList_push, List.mem_append, List.mem_singleton,
          or_and_right, exists_or,
          exists_eq_left, CodeRange.Covers, hstart, hstop]
        constructor
        · exact .inl
        · rintro (hold | hin)
          · exact hold
          · omega
  · obtain ⟨hlength, k, hk, hin⟩ := h.within p hp
    refine ⟨hlength, k, ?_, hin⟩
    rw [(pages_turned c side side region j).1, if_pos rfl]
    exact Array.mem_push_of_mem j hk

/-! ### Both chains -/

/-- Where the code of a chain starts. -/
def front (x : Chain) : Nat := x.writer.elim 0 fun w => w.cursor.toNat

/-- No two pieces share a byte. -/
def Apart (pieces : List Piece) : Prop := pieces.Pairwise fun p q => ∀ a, p.Covers a → ¬ q.Covers a

/-- Both chains are strung together, and nothing but their pieces was written. -/
structure Laced (b : Backend) (r : CodePages) (l : List Nat) (c : Code)
    (pieces : Side → List Piece) : Prop where
  tidy : Tidy r l c
  strung : ∀ side, Strung b r.bytes c side (front (c.chain side)) (pieces side)
  apart : ∀ side, Apart (pieces side)
  outside : ∀ a, (∀ side, ∀ p ∈ pieces side, ¬ p.Covers a) → c.region.mem.get? a = r.mem.get? a

variable {P : Side → List Piece}

theorem laced_start (hr : r.Laid) (hf : r.Frees l) : Laced b r l { region := r } fun _ => [] where
  tidy := ⟨drawn_start hf, rfl, hr.valid, fun _ _ => rfl,
    fun side w hw => by cases side <;> cases hw⟩
  strung side := by
    refine ⟨fun _ => ?_, fun w hw => ?_, nofun, nofun⟩
    · cases side <;> exact ⟨rfl, rfl, rfl⟩
    · cases side <;> cases hw
  apart _ := .nil
  outside _ _ := rfl

/-- What is done to one chain leaves the other one as it is. -/
theorem Laced.update (h : Laced b r l c P) (pieces : List Piece) (ht : Tidy r l c')
    (hl : Later r.bytes c c')
    (hother : ∀ s, s ≠ side → c'.chain s = c.chain s)
    (hside : Strung b r.bytes c' side (front (c'.chain side)) pieces) (hapart : Apart pieces)
    (hold : ∀ p ∈ P side, p ∈ pieces)
    (hsame : ∀ a, (∀ p ∈ pieces, ¬ p.Covers a) → c'.region.mem.get? a = c.region.mem.get? a) :
    Laced b r l c' (Function.update P side pieces) where
  tidy := ht
  strung s := by
    by_cases hs : s = side
    · subst hs
      rwa [Function.update_self]
    · rw [Function.update_of_ne hs]
      have hstrung := (h.strung s).later hl (hother s hs)
      rwa [← hother s hs] at hstrung
  apart s := by
    by_cases hs : s = side
    · subst hs
      rwa [Function.update_self]
    · rw [Function.update_of_ne hs]
      exact h.apart s
  outside a ha := by
    have hnew : ∀ p ∈ pieces, ¬ p.Covers a := by
      have := ha side
      rwa [Function.update_self] at this
    rw [hsame a hnew]
    refine h.outside a fun s p hp => ?_
    by_cases hs : s = side
    · subst hs
      exact hnew p (hold p hp)
    · exact ha s p (by rwa [Function.update_of_ne hs])

theorem pos_eq {k : Nat} (hcursor : w.cursor = k) (hlt : k < 2 ^ 32) :
    w.pos = .ofNat k ∧ w.pos.toNat = k := by
  have hpos : w.pos.toNat = k := by
    rw [Writer.pos, toNat_ofInt (by omega) (by omega)]
    omega
  refine ⟨UInt32.toNat.inj ?_, hpos⟩
  rw [hpos, UInt32.toNat_ofNat_of_lt' hlt]

theorem front_eq {x : Chain} (hw : x.writer = some w) : front x = w.cursor.toNat := by
  rw [front, hw]
  rfl

/-- A request in front. -/
theorem Laced.request (h : Laced b r l c P) (hr : r.Laid) (hw : (c.chain side).writer = some w)
    (hwrite : write b side w i c = .ok () c') :
    ∃ p : Piece, p.request = some i ∧ w.cursor = (p.stop : Nat) ∧
      Laced b r l c' (Function.update P side (p :: P side)) := by
  obtain ⟨ht', hl⟩ := (keepsAt_ok hwrite).mp ((advances_moves hr.toSized l b).writes hw i) h.tidy
  have hsmall := hr.small
  have hsize := ht'.size
  obtain ⟨p, hrequest, hstrung, hwriter, hstop, hopen, hsame⟩ :=
    (h.strung side).written hr h.tidy hw hwrite (some i)
    fun stop place bytes hcursor hle hencode hshows hfollows => by
      obtain ⟨hpos, -⟩ := pos_eq hcursor (by omega)
      rw [front_eq hw, hcursor, Int.toNat_natCast] at hfollows
      exact ⟨rfl, hshows, hpos ▸ hencode, hfollows⟩
  refine ⟨p, hrequest, hstop, h.update (p :: P side) ht' hl (fun s hs => ?_) ?_ ?_
    (fun q hq => List.mem_cons_of_mem _ hq) fun a ha => ?_⟩
  · obtain ⟨_, _, -, rfl⟩ := write_ok hwrite
    rw [chain_written, if_neg hs]
  · rwa [front_eq hwriter, Int.toNat_natCast]
  · exact .cons (fun q hq a ha hin => (h.strung side).closed q hq a hin (hopen a ha)) (h.apart side)
  · exact hsame a (ha p List.mem_cons_self)

/-- A page that is taken for the first time. -/
theorem Laced.opened (h : Laced b r l c P) (hr : r.Laid) (hpage : 1024 ≤ r.pageSize)
    (hnone : (c.chain side).writer = none)
    {region : CodePages} {j : Nat} (htake : c.region.take? (c.chain side).kind = some (region, j)) :
    Laced b r l (c.turned side region j) P := by
  obtain ⟨ht', hl⟩ := h.tidy.turned hr.toSized htake
  obtain ⟨-, hbounds⟩ := h.tidy.drawn.bounds_take hr.toSized htake
  have hpieces := ((h.strung side).blank hnone).1
  have hwriter : ((c.turned side region j).chain side).writer = some (blankPage region j) := by
    simp [Code.turned]
  have hstrung : Strung b r.bytes c side ((j + 1) * r.bytes) (P side) := by
    have hblank := (h.strung side).blank
    rw [hpieces] at hblank ⊢
    exact ⟨hblank, fun w hw => (by rw [hnone] at hw; cases hw), (fun _ h => by cases h),
      (fun _ h => by cases h)⟩
  have hnext :=
    hstrung.turned hr hpage h.tidy htake (fun w hw => (by rw [hnone] at hw; cases hw)) fun _ => rfl
  rw [← Function.update_eq_self side P]
  refine h.update (P side) ht' hl (fun s hs => chain_turned c side s region j hs) ?_ (h.apart side)
    (fun _ hp => hp) fun a _ => ?_
  · rw [front_eq hwriter, blankPage, hbounds]
    exact hnext
  · rw [region_turned, CodePages.take?_mem htake]

/-- A page that goes on in the page before. -/
theorem Laced.linked (h : Laced b r l c P) (hr : r.Laid) (hpage : 1024 ≤ r.pageSize) {old : Writer}
    (hold : (c.chain side).writer = some old) (hroom : old.free < room b)
    {region : CodePages} {j : Nat}
    (htake : c.region.take? (c.chain side).kind = some (region, j))
    (hwrite : write b side (blankPage region j) (.jump old.pos)
      (c.turned side region j) = .ok () c') :
    ∃ p : Piece, p.request = none ∧ Laced b r l c' (Function.update P side (p :: P side)) := by
  obtain ⟨ht₁, hl₁⟩ := h.tidy.turned hr.toSized htake
  have hw₁ : ((c.turned side region j).chain side).writer = some (blankPage region j) := by
    simp [Code.turned]
  obtain ⟨ht', hl⟩ := (keepsAt_ok hwrite).mp ((advances_moves hr.toSized l b).writes hw₁ _) ht₁
  obtain ⟨hfrom, hlow, hwithin, -⟩ := h.tidy.within hr hold
  have hsmall := hr.small
  have hsize := h.tidy.size
  have hsize' := ht'.size
  obtain ⟨k, hk⟩ : ∃ k : Nat, old.cursor = k := ⟨_, (Int.toNat_of_nonneg (by omega)).symm⟩
  have hstrung := (h.strung side).turned hr hpage h.tidy htake (fun w hw => by
    rw [hold] at hw
    cases hw
    exact hroom) fun hnone => by
    rw [hold] at hnone
    cases hnone
  obtain ⟨p, hrequest, hstrung', hwriter, -, hopen, hsame⟩ := hstrung.written hr ht₁ hw₁ hwrite none
    fun stop place bytes hcursor hle hencode hshows hfollows => by
      have hbytes : bytes =
          b.jumpBytes (b.branchSite (blankPage region j).pos (.jump old.pos)) old.pos := by
        rw [encode_jump] at hencode
        exact (Except.ok.inj hencode).symm
      have hlength : bytes.length = b.jumpLength := hbytes ▸ b.length_jumpBytes _ _
      have hsite : (b.branchSite (blankPage region j).pos (.jump old.pos)).toNat = place := by
        rw [toNat_branchSite (by rw [(pos_eq hcursor (by omega)).2]; omega),
          (pos_eq hcursor (by omega)).2]
        omega
      rw [front_eq hold, hk, Int.toNat_natCast, ← (pos_eq hk (by omega)).2] at hfollows
      refine ⟨rfl, hshows, _, old.pos, hsite, hbytes, ⟨?_, ?_⟩, hfollows⟩
      · rw [hsite]
        omega
      · rw [hsite, ← hbytes]
        exact hshows
  refine ⟨p, hrequest, h.update (p :: P side) ht' (hl₁.trans hl) (fun s hs => ?_) ?_
    (.cons (fun q hq a ha hin => hstrung.closed q hq a hin (hopen a ha)) (h.apart side))
    (fun q hq => List.mem_cons_of_mem _ hq) fun a ha => ?_⟩
  · obtain ⟨_, _, -, rfl⟩ := write_ok hwrite
    rw [chain_written, if_neg hs, chain_turned c side s region j hs]
  · rwa [front_eq hwriter, Int.toNat_natCast]
  · rw [hsame a (ha p List.mem_cons_self), region_turned, CodePages.take?_mem htake]

/-! ### All writing -/

/-- Writing stops when no page is free, or at a request that cannot be encoded. -/
def Halts (b : Backend) (calls : List (Side × Instr)) (e : CompileStop) (c : Code) : Prop :=
  ((∃ side, e = .error (c.noPage side)) ∧ c.region.Frees []) ∨
    ∃ call ∈ calls, ∃ pos f, b.encode pos call.2 = .error f ∧ e = .fault f

/-- More pieces in front of one chain. -/
def fronted (P : Side → List Piece) (side : Side) (pieces : List Piece) : Side → List Piece :=
  Function.update P side (pieces ++ P side)

@[simp] theorem fronted_self (P : Side → List Piece) (side : Side) (pieces : List Piece) :
    fronted P side pieces side = pieces ++ P side := Function.update_self ..

theorem fronted_of_ne (P : Side → List Piece) {s side : Side} (hs : s ≠ side)
    (pieces : List Piece) :
    fronted P side pieces s = P s := Function.update_of_ne hs ..

@[simp] theorem fronted_nil (P : Side → List Piece) (side : Side) : fronted P side [] = P :=
  Function.update_eq_self side P

@[simp] theorem fronted_fronted (P : Side → List Piece) (side : Side)
    (pieces pieces' : List Piece) :
    fronted (fronted P side pieces) side pieces' = fronted P side (pieces' ++ pieces) := by
  rw [fronted, fronted, fronted, Function.update_idem, Function.update_self, List.append_assoc]

theorem fronted_comm (P : Side → List Piece) (pieces pieces' : List Piece) :
    fronted (fronted P .main pieces) .exits pieces' =
      fronted (fronted P .exits pieces') .main pieces := by
  funext s
  cases s <;> rfl

theorem requests_fronted (P : Side → List Piece) (side s : Side) (pieces : List Piece) :
    requests (fronted P side pieces s) = if s = side then requests pieces ++ requests
    (P s) else requests (P s) := by
  by_cases hs : s = side
  · subst hs
    rw [fronted_self, if_pos rfl, requests_append]
  · rw [fronted_of_ne P hs, if_neg hs]

/-- A page with room is had, after a jump to the page before if need be. -/
theorem Laced.ensure (h : Laced b r l c P) (hr : r.Laid) (hpage : 1024 ≤ r.pageSize) (side : Side) :
    Ensures (Halts b []) (Code.ensure b side) c fun w c' => ∃ join, requests join = [] ∧
      Laced b r l c' (fronted P side join) ∧ (c'.chain side).writer = some w ∧
      b.maxLength ≤ w.free := by
  have hlength : (b.maxLength : Int) ≤ 512 := by cases b <;> decide
  have hnil : fronted P side [] = P := fronted_nil P side
  rcases ensure_eq b side c with ⟨w, hw, hroom, heq⟩ | ⟨htake, heq⟩ | ⟨region, j, htake,
    ⟨hnone, heq⟩ | ⟨old, hold, hroom, heq⟩⟩
  · refine (ensures_ok heq).mpr ⟨[], rfl, hnil.symm ▸ h, hw, ?_⟩
    unfold room at hroom
    omega
  · obtain ⟨l', hf, -⟩ := h.tidy.drawn.frees
    obtain rfl := CodePages.take?_none hf htake
    exact (ensures_error heq).mpr (.inl ⟨⟨side, rfl⟩, hf⟩)
  · obtain ⟨-, hw, hfree⟩ := turned_room hr hpage h.tidy htake
    exact (ensures_ok heq).mpr ⟨[], rfl, hnil.symm ▸ h.opened hr hpage hnone htake, hw, by omega⟩
  · obtain ⟨ht', hw, hfree⟩ := turned_room hr hpage h.tidy htake
    obtain ⟨c', w', hwrite, -, hw', hfree'⟩ :=
      write_room (b := b) (i := .jump old.pos) hr ht' hw trivial (by omega)
    have hjump : Code.ensure b side c = .ok w' c' := by
      rw [heq, bind_ok hwrite]
      show EStateM.Result.ok ((c'.chain side).writer.getD _) c' = _
      rw [hw']
      rfl
    obtain ⟨p, hrequest, hlaced⟩ := h.linked hr hpage hold hroom htake hwrite
    refine (ensures_ok hjump).mpr ⟨[p], ?_, hlaced, hw', by omega⟩
    rw [requests_cons, hrequest]
    rfl

/-- A request that is written to a page with room. -/
theorem Laced.write (h : Laced b r l c P) (hr : r.Laid) (hw : (c.chain side).writer = some w)
    (hfree : b.maxLength ≤ w.free)
    (i : Instr) : Ensures (Halts b [(side, i)]) (Code.write b side w i) c fun _ c' =>
      ∃ p : Piece, p.request = some i ∧ w.cursor = (p.stop : Nat) ∧
      Laced b r l c' (fronted P side [p]) := by
  cases hencode : b.encode w.pos i with
  | error f =>
    have hstop : Code.write b side w i c = .error (.fault f) (c.written side w c.region.mem) := by
      rw [write_eq, Writer.emit, hencode]
    exact (ensures_error hstop).mpr (.inr ⟨_, List.mem_singleton_self _, _, f, hencode, rfl⟩)
  | ok bytes =>
    obtain ⟨c', w', hwrite, -⟩ := write_fits hr h.tidy hw hencode hfree
    exact (ensures_ok hwrite).mpr (h.request hr hw hwrite)

theorem Laced.emit (h : Laced b r l c P) (hr : r.Laid) (hpage : 1024 ≤ r.pageSize)
    (side : Side) (i : Instr) :
    Ensures (Halts b [(side, i)]) (Code.emit b side i) c fun _ c' => ∃ (p : Piece)
    (join : List Piece),
      p.request = some i ∧ requests join = [] ∧ Laced b r l c' (fronted P side (p :: join)) := by
  refine .bind ((h.ensure hr hpage side).stops fun e c' => .imp id fun ⟨_, h, _⟩ => nomatch h)
    fun w c₁ ⟨join, hjoin, h₁, hw, hfree⟩ => ?_
  refine (h₁.write hr hw hfree i).mono fun _ c' ⟨p, hrequest, _, h'⟩ =>
    ⟨p, join, hrequest, hjoin, ?_⟩
  rwa [fronted_fronted] at h'

/-- The pieces of a chain are followed from its start. -/
theorem Laced.followed (h : Laced b r l c P) (hr : r.Laid) (hw : (c.chain side).writer = some w) :
    ∃ stop, stop ≤ c.region.mem.size ∧ Follows b c.region.mem stop w.pos.toNat (P side) := by
  obtain ⟨older, j, first, place, hpages, hfirst, -, hcursor, hle, -, hfollows, -⟩ :=
    (h.strung side).current w hw
  have hsmall := hr.small
  have hsize := h.tidy.size
  have hpage :=
    hr.page_le (h.tidy.drawn.page_lt (Array.mem_toList_iff.mp (by rw [hpages]; simp : j ∈ _)))
  have hend := hr.page_le (h.tidy.drawn.page_lt (Array.mem_of_getElem? hfirst))
  rw [front_eq hw, hcursor, Int.toNat_natCast] at hfollows
  exact ⟨(first + 1) * r.bytes, by omega, by rwa [(pos_eq hcursor (by omega)).2]⟩

/-- A jump that can be redirected. -/
theorem Laced.emitBranch (h : Laced b r l c P) (hr : r.Laid) (hpage : 1024 ≤ r.pageSize)
    (side : Side) (target : CodeAddr) :
    Ensures (Halts b [(side, .jump target)])
    (Code.emitBranch b side (.jump target)) c fun site c' =>
      ∃ (p : Piece) (join : List Piece), p.request = some (.jump target) ∧ requests join = [] ∧
      p.place = site.toNat ∧
        Laced b r l c' (fronted P side (p :: join)) := by
  refine .bind ((h.ensure hr hpage side).stops fun e c' => .imp id fun ⟨_, h, _⟩ => nomatch h)
    fun w c₁ ⟨join, hjoin, h₁, hw, hfree⟩ => ?_
  refine .bind (h₁.write hr hw hfree (.jump target)) fun _ c' ⟨p, hrequest, hstop, h'⟩ =>
    .pure ⟨p, join, hrequest, hjoin, ?_, ?_⟩
  · obtain ⟨w', hw'⟩ : ∃ w', (c'.chain side).writer = some w' := by
      cases hnone : (c'.chain side).writer with
      | some w' => exact ⟨w', rfl⟩
      | none =>
        have hblank := ((h'.strung side).blank hnone).1
        rw [fronted_self] at hblank
        cases hblank
    obtain ⟨_, -, hfollows⟩ := h'.followed hr hw'
    rw [fronted_self] at hfollows
    obtain ⟨-, -, hnext⟩ := hfollows
    rw [hrequest] at hnext
    obtain ⟨hwithin, k, hk, hpage'⟩ :=
      (h'.strung side).within p (by rw [fronted_self]; exact List.mem_cons_self)
    have hend := hr.page_le (h'.tidy.drawn.page_lt hk)
    have hsmall := hr.small
    have hin := hpage'.2
    obtain ⟨hpos, hnat⟩ := pos_eq hstop (by omega)
    have hencode := hnext.1
    rw [encode_jump] at hencode
    have hlength : p.bytes.length = b.jumpLength := by
      rw [← Except.ok.inj hencode, b.length_jumpBytes]
    have hsum : p.place + p.bytes.length = p.stop := rfl
    rw [toNat_branchSite (by omega)]
    omega
  · rwa [fronted_fronted] at h'

/-- Requests one after the other, each for one of the chains. -/
def emitAll (b : Backend) (calls : List (Side × Instr)) : Coding Unit :=
  calls.forM fun call => emit b call.1 call.2

/-- The requests for a chain. -/
def requestsFor (side : Side) (calls : List (Side × Instr)) : List Instr :=
  (calls.filter (·.1 = side)).map (·.2)

theorem Halts.mono {calls calls' : List (Side × Instr)} {e : CompileStop} (h : Halts b calls e c)
    (hsub : calls ⊆ calls') :
    Halts b calls' e c :=
  h.imp id fun ⟨call, hcall, hfault⟩ => ⟨call, hsub hcall, hfault⟩

theorem Laced.emitAll (h : Laced b r l c P) (hr : r.Laid) (hpage : 1024 ≤ r.pageSize)
    (calls : List (Side × Instr)) :
    Ensures (Halts b calls) (Code.emitAll b calls) c fun _ c' => ∃ P', Laced b r l c' P' ∧
      ∀ s, requests (P' s) = (requestsFor s calls).reverse ++ requests (P s) := by
  induction calls generalizing c P with
  | nil => exact .pure ⟨P, h, fun _ => rfl⟩
  | cons call calls ih =>
    obtain ⟨side, i⟩ := call
    refine .bind ((h.emit hr hpage side i).stops fun e _ he => he.mono (by simp)) fun _ c₁ ⟨p,
      join, hp, hjoin, h₁⟩ => ?_
    refine ((ih h₁).stops fun e _ he => he.mono (List.subset_cons_self ..)).mono
      fun _ c₂ ⟨P₂, h₂, hrest⟩ => ⟨P₂, h₂, fun s => ?_⟩
    rw [hrest, requests_fronted, requests_cons, hp, hjoin]
    by_cases hs : s = side
    · subst hs
      simp [requestsFor]
    · simp [requestsFor, hs, Ne.symm hs]

/-- Where the code of a chain starts. -/
theorem Laced.pos (h : Laced b r l c P) (hr : r.Laid) (hpage : 1024 ≤ r.pageSize) (side : Side) :
    Ensures (Halts b []) (Code.pos b side) c fun start c' => ∃ w, Laced b r l c' P ∧
      (c'.chain side).writer = some w ∧ start = w.pos := by
  unfold Code.pos
  refine .get ?_
  split
  · next w hw => exact .pure ⟨w, h, hw, rfl⟩
  · next hnone =>
    rcases ensure_eq b side c
      with ⟨w, hw, -, -⟩ | ⟨htake, heq⟩ | ⟨region, j, htake, ⟨-, heq⟩ | ⟨old, hold, -, -⟩⟩
    · rw [hnone] at hw
      cases hw
    · obtain ⟨l', hf, -⟩ := h.tidy.drawn.frees
      obtain rfl := CodePages.take?_none hf htake
      exact (ensures_error (bind_error heq)).mpr (.inl ⟨⟨side, rfl⟩, hf⟩)
    · obtain ⟨-, hw, -⟩ := turned_room hr hpage h.tidy htake
      exact .bind (Q := fun w c' => Laced b r l c' P ∧ (c'.chain side).writer = some w)
        ((ensures_ok heq).mpr ⟨h.opened hr hpage hnone htake, hw⟩) fun w _ ⟨h', hw⟩ =>
          .pure ⟨w, h', hw, rfl⟩
    · rw [hnone] at hold
      cases hold

/-! ### What was written -/

/-- The code of a chain in its pages, for the requests `calls` in the order in which they were made;
`start` is where it starts. -/
structure Transparent (b : Backend) (r : CodePages) (l : List Nat) (c : Code) (side : Side)
    (calls : List Instr)
    (start : CodeAddr) (pieces : List Piece) : Prop where
  /-- Along the jumps, to the end of the first page. -/
  follows : ∃ first, (c.chain side).pages[0]? = some first ∧
    Follows b c.region.mem ((first + 1) * r.bytes) start.toNat pieces
  requests : requests pieces = calls.reverse
  length : ∀ p ∈ pieces, p.bytes.length ≤ b.maxLength
  within : ∀ p ∈ pieces, ∃ h ∈ (c.chain side).pages, p.Within r.bytes h
  taken : ∀ h ∈ (c.chain side).pages, h ∈ l
  /-- One range for each page that has received bytes, up to the end of the page. -/
  ranges : ∃ used : List Nat, used.Nodup ∧
    List.Forall₂ (CodeRange.Fills r.bytes) used (c.chain side).finish ∧
    ∀ h, h ∈ used ↔ h ∈ (c.chain side).pages ∧ ∃ p ∈ pieces, p.bytes ≠ [] ∧ p.Within r.bytes h
  disjoint : (c.chain side).finish.Pairwise fun x y =>
    ∀ a, ¬ (CodeRange.Covers x a ∧ CodeRange.Covers y a)
  covers : ∀ a, (∃ x ∈ (c.chain side).finish, CodeRange.Covers x a) ↔ ∃ p ∈ pieces, p.Covers a

theorem Drawn.pages_nodup (hd : Drawn r l c) (hl : l.Nodup) (side : Side) :
    (c.chain side).pages.toList.Nodup := by
  obtain ⟨l', -, hperm⟩ := hd.frees
  have hnodup := (List.nodup_append.mp (List.nodup_append.mp (hperm.nodup_iff.mpr hl)).1)
  cases side with
  | main => exact hnodup.1
  | exits => exact hnodup.2.1

theorem fills_page {h a : Nat} {x : CodeRange} (hx : CodeRange.Fills n h x)
    (ha : CodeRange.Covers x a) : a / n = h :=
  div_eq_page (Nat.le_trans hx.1 ha.1) (hx.2.2 ▸ ha.2)

/-- Each item of one list has a partner in the other. -/
theorem partners_of_forall₂ {α β : Type} {R : α → β → Prop} {l : List α} {m : List β}
    (h : List.Forall₂ R l m) :
    (∀ x ∈ l, ∃ y ∈ m, R x y) ∧ ∀ y ∈ m, ∃ x ∈ l, R x y := by
  induction h with
  | nil => exact ⟨nofun, nofun⟩
  | @cons x y l m hhead _ ih =>
    refine ⟨fun x' hx => ?_, fun y' hy => ?_⟩
    · rcases List.mem_cons.mp hx with rfl | hx
      · exact ⟨y, List.mem_cons_self, hhead⟩
      · obtain ⟨y', hy, hR⟩ := ih.1 x' hx
        exact ⟨y', List.mem_cons_of_mem _ hy, hR⟩
    · rcases List.mem_cons.mp hy with rfl | hy
      · exact ⟨x, List.mem_cons_self, hhead⟩
      · obtain ⟨x', hx, hR⟩ := ih.2 y' hy
        exact ⟨x', List.mem_cons_of_mem _ hx, hR⟩

/-- Ranges on different pages are disjoint. -/
theorem disjoint_of_fills {used : List Nat} {ranges : List CodeRange}
    (h : List.Forall₂ (CodeRange.Fills n) used ranges)
    (hnodup : used.Nodup) :
    ranges.Pairwise fun x y => ∀ a, ¬ (CodeRange.Covers x a ∧ CodeRange.Covers y a) := by
  induction h with
  | nil => exact .nil
  | @cons j x used ranges hx hrest ih =>
    obtain ⟨hj, hnodup⟩ := List.nodup_cons.mp hnodup
    refine .cons (fun y hy a ⟨hxa, hya⟩ => ?_) (ih hnodup)
    obtain ⟨k, hk, hfills⟩ := (partners_of_forall₂ hrest).2 y hy
    rw [← fills_page hx hxa, fills_page hfills hya] at hj
    exact hj hk

/-- The ranges of a chain are those of the pages that it has written to. -/
theorem Strung.finish (h : Strung b r.bytes c side next pieces) (hr : r.Laid) (ht : Tidy r l c)
    (hw : (c.chain side).writer = some w) :
    ∃ used : List Nat, used.Sublist (c.chain side).pages.toList ∧
      List.Forall₂ (CodeRange.Fills r.bytes) used (c.chain side).finish ∧
      ∀ a, (∃ x ∈ (c.chain side).finish, CodeRange.Covers x a) ↔ ∃ p ∈ pieces, p.Covers a := by
  obtain ⟨older, j, first, place, hpages, hfirst, hlow, hcursor, hle, hhigh, hfollows,
    hranges, hcovers⟩ := h.current w hw
  obtain ⟨hfrom, hlow', -, -⟩ := ht.within hr hw
  have hsmall := hr.small
  have hend :=
    hr.page_le (ht.drawn.page_lt (Array.mem_toList_iff.mp (by rw [hpages]; simp : j ∈ _)))
  have hstart : w.pos.toNat = place := (pos_eq hcursor (by omega)).2
  have hstop : (UInt32.ofInt (c.chain side).high).toNat = (j + 1) * r.bytes := by
    rw [toNat_ofInt (by omega) (by omega)]
    omega
  rw [Chain.finish_some hw, hpages, hstart, hhigh]
  by_cases hsome : place < (j + 1) * r.bytes
  · rw [if_pos (by omega), ← hhigh]
    refine ⟨older ++ [j], List.Sublist.refl _,
      List.rel_append hranges (.cons ⟨?_, ?_, hstop⟩ .nil), fun a => ?_⟩
    · rw [hstart]
      omega
    · rwa [hstart, hstop]
    · simp only [hcovers a, List.mem_append, List.mem_singleton, or_and_right,
        exists_or, exists_eq_left,
        CodeRange.Covers, hstart, hstop]
  · rw [if_neg (by omega), List.append_nil]
    refine ⟨older, List.sublist_append_left .., hranges, fun a => ?_⟩
    rw [hcovers a]
    exact ⟨.inl, fun h => h.resolve_right (by omega)⟩

theorem Laced.transparent (h : Laced b r l c P) (hr : r.Laid) (hl : l.Nodup)
    (hw : (c.chain side).writer = some w)
    {calls : List Instr} (hcalls : requests (P side) = calls.reverse) :
    Transparent b r l c side calls w.pos (P side) := by
  have hstrung := h.strung side
  obtain ⟨used, hsub, hfills, hcovers⟩ := hstrung.finish hr h.tidy hw
  have hnodup := (h.tidy.drawn.pages_nodup hl side).sublist hsub
  refine ⟨?_, hcalls, fun p hp => (hstrung.within p hp).1, fun p hp => (hstrung.within p hp).2,
    fun j hj => h.tidy.drawn.page_mem hj,
    ⟨used, hnodup, hfills, fun j => ⟨fun hj => ?_, fun ⟨_, p, hp, hbytes, hin⟩ => ?_⟩⟩,
    disjoint_of_fills hfills hnodup, hcovers⟩
  · obtain ⟨older, j, first, place, -, hfirst, -, hcursor, -, -, hfollows, -⟩ :=
      hstrung.current w hw
    obtain ⟨hfrom, hlow, hwithin, -⟩ := h.tidy.within hr hw
    have hsmall := hr.small
    have hsize := h.tidy.size
    rw [front_eq hw, hcursor, Int.toNat_natCast] at hfollows
    exact ⟨first, hfirst, by rwa [(pos_eq hcursor (by omega)).2]⟩
  · -- the first byte of the range is one of a piece
    obtain ⟨x, hx, hfill⟩ := (partners_of_forall₂ hfills).1 j hj
    have hstart : CodeRange.Covers x x.start.toNat := ⟨Nat.le_refl _, hfill.2.1⟩
    obtain ⟨p, hp, hin⟩ := (hcovers _).mp ⟨x, hx, hstart⟩
    obtain ⟨k, hk, hpage⟩ := (hstrung.within p hp).2
    obtain rfl : k = j := by
      rw [← fills_page hfill hstart,
        div_eq_page (Nat.le_trans hpage.1 hin.1) (Nat.lt_of_lt_of_le hin.2 hpage.2)]
    refine ⟨hk, p, hp, fun hnil => ?_, hpage⟩
    have hbounds : p.place ≤ x.start.toNat ∧ x.start.toNat < p.place + p.bytes.length := hin
    rw [hnil, List.length_nil] at hbounds
    omega
  · -- the first byte of the piece is in one of the ranges
    have hfirst : p.Covers p.place :=
      ⟨Nat.le_refl _, Nat.lt_add_of_pos_right (List.length_pos_iff.mpr hbytes)⟩
    obtain ⟨x, hx, hcover⟩ := (hcovers p.place).mpr ⟨p, hp, hfirst⟩
    obtain ⟨k, hk, hfill⟩ := (partners_of_forall₂ hfills).2 x hx
    rwa [← fills_page hfill hcover, div_eq_page hin.1 (Nat.lt_of_lt_of_le hfirst.2 hin.2)] at hk

/-- Nothing is written outside the ranges of the two chains. -/
theorem Laced.unwritten (h : Laced b r l c P) (hr : r.Laid) {a : Nat}
    (ha : ∀ side, ∀ x ∈ (c.chain side).finish, ¬ CodeRange.Covers x a) :
    c.region.mem.get? a = r.mem.get? a := by
  refine h.outside a fun side p hp hin => ?_
  cases hw : (c.chain side).writer with
  | none =>
    rw [((h.strung side).blank hw).1] at hp
    cases hp
  | some w =>
    obtain ⟨_, -, -, hcovers⟩ := (h.strung side).finish hr h.tidy hw
    obtain ⟨x, hx, hcover⟩ := (hcovers a).mpr ⟨p, hp, hin⟩
    exact ha side x hx hcover

/-- Requests for both chains in any order, in a region whose pages have at least the least size that
a configuration may give them, whatever pages are free. Writing them stops only when no page is free
or at a request that has no encoding; no request takes more room than its back end says, and no page
overflows. Otherwise the code of a chain can be followed from its start through its own jumps alone,
and there are the encodings of its requests, the last one first. They lie on pages that were taken,
the ranges of the chain tell exactly where, and no other byte was changed. -/
theorem chains_transparent (b : Backend) {r : CodePages} {l : List Nat} (hr : r.Laid)
    (hpage : 1024 ≤ r.pageSize)
    (hf : r.Frees l) (calls : List (Side × Instr)) (side : Side) :
    Ensures (Halts b calls) (emitAll b calls >>= fun _ => pos b side) { region := r } fun start c =>
      (∃ pieces, Transparent b r l c side (requestsFor side calls) start pieces) ∧
        ∀ a, (∀ s, ∀ x ∈ (c.chain s).finish, ¬ CodeRange.Covers x a) →
        c.region.mem.get? a = r.mem.get? a := by
  refine .bind ((laced_start hr hf).emitAll hr hpage calls) fun _ c₁ ⟨P₁, h₁, hrequests⟩ => ?_
  refine ((h₁.pos hr hpage side).stops fun e _ he => he.mono (List.nil_subset _)).mono
    fun start c₂ ⟨w, h₂, hw, hstart⟩ => ?_
  subst hstart
  refine ⟨⟨P₁ side, h₂.transparent hr hf.nodup hw ?_⟩, fun a ha => h₂.unwritten hr ha⟩
  rw [hrequests]
  exact List.append_nil _

/-- A region of three pages; the first one is not free. -/
def threePages : CodePages :=
  CodePages.reset { mem := { size := 3072 }, pageSize := 1024, pages := CodePages.fresh 3 }

/-- Forty-six requests of sixteen bytes, which one page has no room for. -/
def manyRequests : List (Side × Instr) := List.replicate 46 (.main, .movImm 1 7)

/-- They go on in a second page, and are followed through both. -/
theorem two_pages_transparent : ∃ start c pieces,
    (emitAll .virtual manyRequests >>= fun _ => pos .virtual .main) { region := threePages } =
      .ok start c ∧
      c.main.pages.size = 2 ∧
      Transparent .virtual threePages [1, 2] c .main
      (List.replicate 46 (.movImm 1 7)) start pieces := by
  have hlaid : threePages.Laid :=
    CodePages.laid_create (show CodePages.create 3 1024 false = .ok threePages from rfl)
    (by decide) (by decide)
  have hfree : threePages.Frees [1, 2] := by
    have h := CodePages.frees_reset { mem := { size := 3072 }, pageSize := 1024,
                                      pages := CodePages.fresh 3 }
    rwa [CodePages.fresh_size] at h
  have htransparent := chains_transparent .virtual hlaid (by decide) hfree manyRequests .main
  have hpages : (match (emitAll .virtual manyRequests >>= fun _ => pos .virtual .main)
      { region := threePages } with
      | .ok _ c => some c.main.pages.size
      | .error _ _ => none) = some 2 := by decide +kernel
  cases hrun : (emitAll .virtual manyRequests >>= fun _ => pos .virtual .main)
      { region := threePages } with
  | error e c =>
    rw [hrun] at hpages
    cases hpages
  | ok start c =>
    rw [hrun] at hpages
    obtain ⟨⟨pieces, hpieces⟩, -⟩ := (ensures_ok hrun).mp htransparent
    exact ⟨start, c, pieces, rfl, Option.some.inj hpages, hpieces⟩

end Code

end LoopTracer.Compile
