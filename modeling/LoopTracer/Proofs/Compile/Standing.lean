import Mathlib.Data.List.Pairwise
import LoopTracer.Proofs.Compile.Assembled
import LoopTracer.Proofs.Compile.Rendering
import LoopTracer.Proofs.Compile.Workshop

/-! Compiled traces in memory.

The code of a trace stands on its pages: from the top of the trace to the jump that ends it, and for
each guard from the start of its exit code to the jump that can be redirected. What the code does
when it is carried out is what a pass over the trace does (`Coded`). -/
namespace LoopTracer.Compile

open Machine Trace

/-! ### Redirecting a jump -/

section Redirected

variable {b : Backend} {mem mem' : Memory} {stop mid place : Nat}
  {pieces later body join : List Piece} {p : Piece}
  {site t target : CodeAddr}

theorem Follows.append (h : Follows b mem mid place pieces) (h' : Follows b mem stop mid later) :
    Follows b mem stop place (pieces ++ later) := by
  induction pieces generalizing place with
  | nil =>
    obtain rfl : place = mid := h
    exact h'
  | cons p pieces ih =>
    obtain ⟨rfl, hshows, hnext⟩ := h
    refine ⟨rfl, hshows, ?_⟩
    cases hrequest : p.request with
    | some i =>
      rw [hrequest] at hnext
      exact ⟨hnext.1, ih hnext.2⟩
    | none =>
      rw [hrequest] at hnext
      obtain ⟨site, target, hsite, hbytes, hjumps, hnext⟩ := hnext
      exact ⟨site, target, hsite, hbytes, hjumps, ih hnext⟩

/-- A request to jump is a jump in memory. -/
theorem Follows.jumps (h : Follows b mem stop place (p :: later)) (hstop : stop ≤ mem.size)
    (hsize : mem.size < 2 ^ 32)
    (hjump : p.request = some (.jump t)) (hsite : p.place = site.toNat) :
    Jumps b mem site t ∧ p.stop = p.place + b.jumpLength ∧ Follows b mem stop p.stop later := by
  obtain ⟨rfl, hshows, hnext⟩ := h
  rw [hjump] at hnext
  obtain ⟨hencode, hnext⟩ := hnext
  rw [encode_jump] at hencode
  have hbytes := Except.ok.inj hencode
  have hlength : p.stop = p.place + b.jumpLength := by
    rw [Piece.stop, ← hbytes, b.length_jumpBytes]
  have hinside := hnext.place_le hstop
  have hpos : (UInt32.ofNat p.stop).toNat = p.stop :=
    UInt32.toNat_ofNat_of_lt' (show _ < 2 ^ 32 by omega)
  obtain rfl : site = b.branchSite (.ofNat p.stop) (.jump t) := by
    refine UInt32.toNat.inj ?_
    rw [toNat_branchSite (by omega), hpos, ← hsite]
    omega
  refine ⟨⟨by omega, ?_⟩, hlength, hnext⟩
  rw [← hsite, hbytes]
  exact hshows

/-- The piece of a jump that leads elsewhere. -/
def Piece.redirected (b : Backend) (p : Piece) (site target : CodeAddr) : Piece :=
  { p with bytes := b.jumpBytes site target, request := some (.jump target) }

theorem Piece.redirected_stop (hlength : p.stop = p.place + b.jumpLength) (site target : CodeAddr) :
    (p.redirected b site target).stop = p.stop := by
  rw [hlength, Piece.stop, Piece.redirected, b.length_jumpBytes]

/-- Code in which a jump is redirected is followed as before. -/
theorem Follows.redirected (h : Follows b mem stop place (body ++ p :: join))
    (hstop : stop ≤ mem.size)
    (hsmall : mem.size < 2 ^ 32) (hapart : Code.Apart (body ++ p :: join))
    (hjump : p.request = some (.jump t))
    (hsite : p.place = site.toNat) (hsize : mem'.size = mem.size)
    (hsame : ∀ a, ¬ p.Covers a → mem'.get? a = mem.get? a) (hjumps : Jumps b mem' site target) :
    Follows b mem' stop place (body ++ p.redirected b site target :: join) := by
  obtain ⟨hbody, -, hrest⟩ := h.upTo
  obtain ⟨-, hlength, hjoin⟩ := hrest.jumps hstop hsmall hjump hsite
  have happend := List.pairwise_append.mp hapart
  have hstop' := Piece.redirected_stop hlength site target
  have hinside := hjoin.place_le hstop
  refine (hbody.congr hsize fun q hq a ha => hsame a ?_).append ⟨rfl, ?_, ?_, ?_⟩
  · exact happend.2.2 q hq p List.mem_cons_self a ha
  · show mem'.Shows p.place (b.jumpBytes site target)
    rw [hsite]
    exact hjumps.shows
  · have hpos : (UInt32.ofNat p.stop).toNat = p.stop :=
      UInt32.toNat_ofNat_of_lt' (show _ < 2 ^ 32 by omega)
    rw [hstop', encode_jump]
    refine congrArg (fun site => Except.ok (b.jumpBytes site target)) (UInt32.toNat.inj ?_)
    rw [toNat_branchSite (by omega), hpos, ← hsite]
    omega
  · rw [hstop']
    exact hjoin.congr hsize fun q hq a ha => hsame a fun hin =>
      (List.pairwise_cons.mp happend.2.1).1 q hq a hin ha

end Redirected

/-- A byte of a piece lies on a page of its chain. -/
theorem Code.Laced.page {b : Backend} {r : CodePages} {l : List Nat} {c : Code}
    {P : Side → List Piece} {side : Side} (h : Laced b r l c P) {q : Piece} (hq : q ∈ P side)
    {a : Nat} (ha : q.Covers a) : a / r.bytes ∈ (c.chain side).pages.toList := by
  obtain ⟨-, k, hk, hlow, hhigh⟩ := (h.strung side).within q hq
  rw [Code.div_eq_page (Nat.le_trans hlow ha.1) (Nat.lt_of_lt_of_le ha.2 hhigh)]
  exact Array.mem_toList_iff.mpr hk

/-- A chain with something in it has a place to write. -/
theorem Code.Laced.writer {b : Backend} {r : CodePages} {l : List Nat} {c : Code}
    {P : Side → List Piece} {side : Side} {p : Piece} (h : Laced b r l c P) (hp : p ∈ P side) :
    ∃ w, (c.chain side).writer = some w := by
  cases hw : (c.chain side).writer with
  | some w => exact ⟨w, rfl⟩
  | none =>
    rw [((h.strung side).blank hw).1] at hp
    cases hp

namespace Code

/-- The jump `p` of the main code is sent to `target`, which leaves the memory `mem`. -/
structure Redirects (b : Backend) (c : Code) (P : Side → List Piece) (body join : List Piece)
    (p : Piece) (site target : CodeAddr) (mem : Memory) : Prop where
  main : P .main = body ++ p :: join
  jump : ∃ t, p.request = some (.jump t)
  place : p.place = site.toNat
  length : p.stop = p.place + b.jumpLength
  size : mem.size = c.region.mem.size
  valid : mem.Valid
  same : ∀ a, ¬ p.Covers a → mem.get? a = c.region.mem.get? a
  jumps : Jumps b mem site target

section

variable {b : Backend} {r : CodePages} {l : List Nat} {c : Code} {P : Side → List Piece}
  {body join : List Piece} {p q : Piece} {t site target : CodeAddr} {mem : Memory}

theorem chain_region (c : Code) (region : CodePages) (side : Side) :
    ({ c with region } : Code).chain side = c.chain side := by
  cases side <;> rfl

theorem open_mem (c : Code) (mem : Memory) (n a : Nat) :
    ({ c with region := { c.region with mem } } : Code).Open n a ↔ c.Open n a := by
  unfold Code.Open
  simp only [chain_region]

theorem Laced.redirects (h : Laced b r l c P) (hr : r.Laid) (hmain : P .main = body ++ p :: join)
    (hjump : p.request = some (.jump t)) (hsite : p.place = site.toNat)
    (hpatch : b.patch c.region.mem site target = .ok mem) :
    Redirects b c P body join p site target mem := by
  have hsmall := hr.small
  have hmem := h.tidy.size
  have hp : p ∈ P .main := by rw [hmain]; simp
  obtain ⟨w, hw⟩ := h.writer hp
  obtain ⟨stop, hstop, hfollows⟩ := h.followed hr hw
  rw [hmain] at hfollows
  obtain ⟨hjumps, hlength, -⟩ := hfollows.upTo.2.2.jumps hstop (by omega) hjump hsite
  obtain ⟨mem', hpatch', hjumps', hvalid, hsize, hsame⟩ :=
    hjumps.patch h.tidy.valid (by omega) target
  rw [hpatch] at hpatch'
  cases hpatch'
  refine ⟨hmain, ⟨t, hjump⟩, hsite, hlength, hsize, hvalid, fun a ha => hsame a ?_, hjumps'⟩
  unfold Piece.Covers at ha
  omega

namespace Redirects

variable (hp : Redirects b c P body join p site target mem)
include hp

theorem mem_main : p ∈ P .main := by
  rw [hp.main]
  exact List.mem_append_right _ List.mem_cons_self

theorem covers (a : Nat) : (p.redirected b site target).Covers a ↔ p.Covers a := by
  unfold Piece.Covers
  rw [Piece.redirected_stop hp.length]
  rfl

/-- The same bytes are covered as before. -/
theorem exists_covers (a : Nat) :
    (∃ q ∈ body ++ p.redirected b site target :: join, q.Covers a) ↔ ∃ q ∈ P .main, q.Covers a := by
  rw [hp.main]
  simp only [List.mem_append, List.mem_cons, or_and_right, exists_or, exists_eq_left, hp.covers]

theorem mem_cases (hq : q ∈ body ++ p.redirected b site target :: join) :
    q = p.redirected b site target ∨ q ∈ P .main := by
  rw [hp.main]
  rcases List.mem_append.mp hq with hq | hq
  · exact .inr (List.mem_append_left _ hq)
  · rcases List.mem_cons.mp hq with rfl | hq
    · exact .inl rfl
    · exact .inr (List.mem_append_right _ (List.mem_cons_of_mem _ hq))

theorem tidy (h : Laced b r l c P) : Tidy r l { c with region := { c.region with mem } } where
  drawn := h.tidy.drawn.congr rfl fun side => by simp [chain_region]
  size := hp.size.trans h.tidy.size
  valid := hp.valid
  confined a ha := (hp.same a fun hin => ha .main
    (Array.mem_toList_iff.mp (h.page hp.mem_main hin))).trans (h.tidy.confined a ha)
  writer side w hside := by
    rw [chain_region] at hside ⊢
    exact h.tidy.writer side w hside

/-- The main code is strung together as before, but for the jump. -/
theorem strung_main (h : Laced b r l c P) (hr : r.Laid) :
    Strung b r.bytes { c with region := { c.region with mem } } .main (front (c.chain .main))
      (body ++ p.redirected b site target :: join) := by
  have hs := h.strung .main
  have hstop := Piece.redirected_stop hp.length site target
  obtain ⟨t, hjump⟩ := hp.jump
  refine ⟨fun hnone => ?_, fun w hw => ?_, fun q hq => ?_, fun q hq a ha => ?_⟩
  · obtain ⟨w, hw⟩ := h.writer hp.mem_main
    rw [chain_region, hw] at hnone
    cases hnone
  · rw [chain_region] at hw ⊢
    obtain ⟨older, j, first, place, hpages, hfirst, hlow, hcursor, hle, hhigh,
      hfollows, hranges, hin⟩ := hs.current w hw
    refine ⟨older, j, first, place, hpages, hfirst, hlow, hcursor, hle, hhigh, ?_, hranges,
      fun a => (hp.exists_covers a).trans (hin a)⟩
    have hend := hr.page_le (h.tidy.drawn.page_lt (Array.mem_of_getElem? hfirst))
    have hsmall := hr.small
    have hmem := h.tidy.size
    rw [hp.main] at hfollows
    exact hfollows.redirected (by omega) (by omega)
      (hp.main ▸ h.apart .main) hjump hp.place hp.size hp.same hp.jumps
  · rw [chain_region]
    rcases hp.mem_cases hq with rfl | hq
    · obtain ⟨hbytes, k, hk, hpage⟩ := hs.within p hp.mem_main
      refine ⟨?_, k, hk, hpage.1, hstop ▸ hpage.2⟩
      have hsame : (p.redirected b site target).bytes.length = p.bytes.length :=
        Nat.add_left_cancel hstop
      exact hsame ▸ hbytes
    · exact hs.within q hq
  · rw [open_mem]
    rcases hp.mem_cases hq with rfl | hq
    · exact hs.closed p hp.mem_main a ((hp.covers a).mp ha)
    · exact hs.closed q hq a ha

/-- The exit code is on other pages. -/
theorem strung_exits (h : Laced b r l c P) :
    Strung b r.bytes { c with region := { c.region with mem } } .exits (front (c.chain .exits))
      (P .exits) := by
  have hs := h.strung .exits
  refine ⟨by rw [chain_region]; exact hs.blank, fun w hw => ?_,
    by rw [chain_region]; exact hs.within, fun q hq a ha => ?_⟩
  · rw [chain_region] at hw ⊢
    obtain ⟨older, j, first, place, hpages, hfirst, hlow, hcursor, hle,
      hhigh, hfollows, hrest⟩ := hs.current w hw
    refine ⟨older, j, first, place, hpages, hfirst, hlow, hcursor, hle, hhigh, ?_, hrest⟩
    refine hfollows.congr hp.size fun q hq a ha => hp.same a fun hin => ?_
    cases h.tidy.drawn.page_side (Array.mem_toList_iff.mp (h.page hp.mem_main hin))
      (Array.mem_toList_iff.mp (h.page hq ha))
  · rw [open_mem]
    exact hs.closed q hq a ha

theorem apart (h : Laced b r l c P) : Apart (body ++ p.redirected b site target :: join) := by
  have happend := List.pairwise_append.mp (hp.main ▸ h.apart .main)
  have hcons := List.pairwise_cons.mp happend.2.1
  refine List.pairwise_append.mpr ⟨happend.1,
    List.pairwise_cons.mpr ⟨fun q hq a ha => ?_, hcons.2⟩, fun q hq q' hq' a ha => ?_⟩
  · exact hcons.1 q hq a ((hp.covers a).mp ha)
  · rcases List.mem_cons.mp hq' with rfl | hq'
    · rw [hp.covers]
      exact happend.2.2 q hq p List.mem_cons_self a ha
    · exact happend.2.2 q hq q' (List.mem_cons_of_mem _ hq') a ha

end Redirects

/-- Redirecting a jump of the main code. -/
theorem Laced.patched (h : Laced b r l c P) (hr : r.Laid) (hmain : P .main = body ++ p :: join)
    (hjump : p.request = some (.jump t)) (hsite : p.place = site.toNat)
    (hpatch : b.patch c.region.mem site target = .ok mem) :
    Laced b r l { c with region := { c.region with mem } }
      (Function.update P .main (body ++ p.redirected b site target :: join)) := by
  have hp := h.redirects hr hmain hjump hsite hpatch
  refine ⟨hp.tidy h, fun side => ?_, fun side => ?_, fun a ha => ?_⟩
  · rw [chain_region]
    cases side with
    | main =>
      rw [Function.update_self]
      exact hp.strung_main h hr
    | exits =>
      rw [Function.update_of_ne (by decide)]
      exact hp.strung_exits h
  · cases side with
    | main =>
      rw [Function.update_self]
      exact hp.apart h
    | exits =>
      rw [Function.update_of_ne (by decide)]
      exact h.apart .exits
  · have hnone : ∀ q ∈ P .main, ¬ q.Covers a := fun q hq hin => by
      obtain ⟨q', hq', hin'⟩ := (hp.exists_covers a).mpr ⟨q, hq, hin⟩
      exact ha .main q' (by rwa [Function.update_self]) hin'
    refine (hp.same a (hnone p hp.mem_main)).trans (h.outside a fun side q hq => ?_)
    cases side with
    | main => exact hnone q hq
    | exits => exact ha .exits q (by rwa [Function.update_of_ne (by decide)])

end

end Code

/-! ### Code that stands -/

/-- Code from `start` to `stop` that is followed in memory and carries out some requests; it lies on
some pages and has none of the bytes of `spared`. -/
def Stands (r : CodePages) (pages : List Nat) (spared : Nat → Prop) (start stop : Nat)
    (is : List Instr) : Prop :=
  ∃ pieces : List Piece, requests pieces = is ∧ Follows .virtual r.mem stop start pieces ∧
    stop ≤ r.mem.size ∧
    ∀ p ∈ pieces, ∀ a, p.Covers a → a / r.bytes ∈ pages ∧ ¬ spared a

/-- The exit code of a guard: the number of the guard and of its exit, and the jump that can be
redirected. -/
structure Stub where
  id : GuardId
  exit : Nat
  site : CodeAddr

/-- The exit code of a guard that was compiled. -/
def stubOf (g : Guard) : Stub := ⟨g.id, g.exit, g.site⟩

/-- Where the parts of a compiled trace are. -/
structure Places where
  main : List Nat
  exits : List Nat
  entry : CodeAddr
  loopTop : CodeAddr
  /-- The number of its first exit. -/
  base : Nat
  /-- The exit code of its guards, in the order of the trace. -/
  guards : List Stub

/-- The bytes of the jumps that can be redirected. -/
def Places.Patched (x : Places) (a : Nat) : Prop :=
  ∃ g ∈ x.guards, g.site.toNat ≤ a ∧ a < g.site.toNat + Backend.virtual.jumpLength

/-- Code from the top of a trace, with the exit code of its guards, does what a pass over the
trace does. -/
def Tracks (r : CodePages) (x : Places) (maxSlots : Int) (b : Buffer) (is : List Instr) (e : Env)
    (m : State) : Pass → Prop
  | .on e' =>
    ∃ m', performAll HelperTable.standard.host is m e.heap = .on m' e'.heap ∧ Rests maxSlots e' m'
  | .left s e' => ∃ (g : Stub) (start : CodeAddr) (stub : List Instr) (m₁ m₂ : State),
      x.guards[(b.insts.toList.take e'.values.size).countP (·.op.isGuard)]? = some g ∧
      g.exit = x.base + exitsBefore b e'.values.size ∧
        Stands r x.exits x.Patched start.toNat g.site.toNat stub ∧
      performAll HelperTable.standard.host is m e.heap = .away start m₁ e'.heap ∧
      performAll HelperTable.standard.host stub m₁ e'.heap = .on m₂ e'.heap ∧
      Departed maxSlots g.id (e'.leave s) m₂
  | .fault _ => True

/-- The code of a trace stands in memory; it jumps to `top` at the end, and comes after `intro` when
it is entered. -/
structure Coded (r : CodePages) (x : Places) (maxSlots : Int) (intro : List Instr) (top : CodeAddr)
    (b : Buffer) : Prop where
  entry : Stands r x.main (fun _ => False) x.entry.toNat x.loopTop.toNat intro
  does : ∃ (body : List Instr) (stop : Nat),
    Stands r x.main (fun _ => False) x.loopTop.toNat stop (body ++ [.jump top]) ∧
    ∀ e m, e.values = #[] → (∀ i ∈ b.insts, Addresses e.slots.size i) → Rests maxSlots e m →
      Tracks r x maxSlots b body e m (Env.run .standard b.insts.toList e)

/-- The requests in front of the top of a trace: a branch is entered with the frame of the fragment
that it starts in. -/
def introOf (f : Fragment) (maxSlots : Int) : List Instr :=
  if f.kind == .branch then [] else [.prologue maxSlots]

/-- Where the jump at the end of a trace leads: to its own top, or to that of the fragment that a
branch ends in. -/
def Closes (b : Buffer) (loopTop targetTop top : CodeAddr) : Prop :=
  ∃ n i, b.size = n + 1 ∧ b.insts[n]? = some i ∧
    (i.op = .loop ∧ top = loopTop ∨ i.op = .jumpTree ∧ top = targetTop)

/-! ### Code that is left alone -/

section congr

variable {r r' : CodePages} {pages : List Nat} {spared : Nat → Prop} {start stop : Nat}
  {is intro : List Instr} {x : Places}
  {maxSlots : Int} {b : Buffer} {top : CodeAddr}

theorem Stands.congr (h : Stands r pages spared start stop is) (hsize : r'.mem.size = r.mem.size)
    (hbytes : r'.bytes = r.bytes)
    (hsame : ∀ a, a / r.bytes ∈ pages → ¬ spared a → r'.mem.get? a = r.mem.get? a) :
    Stands r' pages spared start stop is := by
  obtain ⟨pieces, hrequests, hfollows, hstop, hin⟩ := h
  refine ⟨pieces, hrequests, hfollows.congr hsize fun p hp a ha => ?_, hsize ▸ hstop,
    fun p hp a ha => ?_⟩
  · exact hsame a (hin p hp a ha).1 (hin p hp a ha).2
  · rw [hbytes]
    exact hin p hp a ha

/-- Code does what it did as long as its pages stay as they are, but for the jumps that can be
redirected. -/
theorem Coded.congr (h : Coded r x maxSlots intro top b) (hsize : r'.mem.size = r.mem.size)
    (hbytes : r'.bytes = r.bytes)
    (hmain : ∀ a, a / r.bytes ∈ x.main → r'.mem.get? a = r.mem.get? a)
    (hexits : ∀ a, a / r.bytes ∈ x.exits → ¬ x.Patched a → r'.mem.get? a = r.mem.get? a) :
    Coded r' x maxSlots intro top b := by
  obtain ⟨body, stop, hbody, hdoes⟩ := h.does
  refine ⟨h.entry.congr hsize hbytes fun a ha _ => hmain a ha, body, stop,
    hbody.congr hsize hbytes fun a ha _ => hmain a ha, fun e m he haddress hm => ?_⟩
  have htracks := hdoes e m he haddress hm
  cases hrun : Env.run .standard b.insts.toList e with
  | on e' =>
    rw [hrun] at htracks
    exact htracks
  | left s e' =>
    rw [hrun] at htracks
    obtain ⟨g, start, stub, m₁, m₂, hg, hplace, hstub, hrest⟩ := htracks
    exact ⟨g, start, stub, m₁, m₂, hg, hplace, hstub.congr hsize hbytes hexits, hrest⟩
  | fault f => trivial

end congr

section Whole

variable {job : Job} {r : CodePages} {l : List Nat} {n : Nat} {P : Side → List Piece}
  {s s' : Assembler} {c : Code}
  {side : Side} {body join pieces later : List Piece} {p : Piece}

/-- Code is followed to what comes after some pieces. -/
theorem Follows.split {b : Backend} {mem : Memory} {stop place : Nat}
    (h : Follows b mem stop place (pieces ++ (body ++ p :: later))) :
    Follows b mem (p.startOf body) place pieces ∧
    Follows b mem stop (p.startOf body) (body ++ p :: later) := by
  cases body with
  | nil =>
    obtain ⟨hpieces, -, hrest⟩ := h.upTo
    exact ⟨hpieces, hrest⟩
  | cons q body =>
    obtain ⟨hpieces, -, hrest⟩ := h.upTo
    exact ⟨hpieces, hrest⟩

/-- Pieces of a chain that are no jumps share no byte with one that is. -/
theorem Code.Laced.spares {b : Backend} (h : Laced b r l c P) (hr : r.Laid) (hp : p ∈ P side)
    (hstraight : ∀ t, p.request ≠ some (.jump t))
    {q : Piece} (hq : q ∈ P side) {t site : CodeAddr} (hjump : q.request = some (.jump t))
    (hsite : q.place = site.toNat)
    {a : Nat} (ha : p.Covers a) : ¬ (site.toNat ≤ a ∧ a < site.toNat + b.jumpLength) := by
  rintro ⟨hlow, hhigh⟩
  obtain ⟨w, hw⟩ := h.writer hq
  obtain ⟨stop, hstop, hfollows⟩ := h.followed hr hw
  obtain ⟨before, after, hsplit⟩ := List.append_of_mem hq
  have hsmall := hr.small
  have hsize := h.tidy.size
  rw [hsplit] at hfollows
  obtain ⟨-, hlength, -⟩ := hfollows.upTo.2.2.jumps hstop (by omega) hjump hsite
  have : Std.Symm fun p q : Piece => ∀ a, p.Covers a → ¬ q.Covers a :=
    ⟨fun p q hpq a hq hp => hpq a hp hq⟩
  have hne : p ≠ q := fun heq => hstraight t (heq ▸ hjump)
  exact (h.apart side).forall hp hq hne a ha ⟨by omega, by omega⟩

/-- The exit code of a guard stands, and has no byte of a jump that can be redirected. -/
theorem Code.Laced.stub (hc : Laced .virtual r l c P) (hr : r.Laid)
    (hsites : ∀ g ∈ s.guards, ∃ p ∈ P .exits, p.place = g.site.toNat ∧
      ∃ t, p.request = some (.jump t))
    {g : Guard} {start : CodeAddr} {more stub : List Piece}
    (hexits : P .exits = more ++ (stub ++ p :: later))
    (hexit : Exit g start stub p) {x : Places} (hpages : x.exits = c.exits.pages.toList)
    (hguards : ∀ g ∈ x.guards, ∃ g' ∈ s.guards, g.site = g'.site) :
    Stands c.region x.exits x.Patched start.toNat g.site.toNat (requests stub) := by
  have hp : p ∈ P .exits := by rw [hexits]; simp
  obtain ⟨w, hw⟩ := hc.writer hp
  obtain ⟨stop, hstop, hfollows⟩ := hc.followed hr hw
  rw [hexits] at hfollows
  obtain ⟨hstub, -, hrest⟩ := hfollows.split.2.upTo
  have hbytes : c.region.bytes = r.bytes := by
    unfold CodePages.bytes
    rw [hc.tidy.drawn.pageSize]
  refine ⟨stub, rfl, ?_, ?_, fun q hq a ha => ⟨?_, ?_⟩⟩
  · rw [hexit.start, hexit.site]
    exact hstub
  · rw [hexit.site]
    exact hrest.place_le hstop
  · rw [hbytes, hpages]
    exact hc.page (show q ∈ P .exits by rw [hexits]; simp [hq]) ha
  · rintro ⟨g', hg', hlow, hhigh⟩
    obtain ⟨g'', hg'', hsite⟩ := hguards g' hg'
    obtain ⟨q', hq', hplace, t, hjump⟩ := hsites g'' hg''
    refine hc.spares hr (by rw [hexits]; simp [hq]) (fun t ht => ?_) hq' hjump
      (hsite ▸ hplace) ha ⟨hlow, hhigh⟩
    exact hexit.straight t (List.mem_filterMap.mpr ⟨q, hq, ht⟩)

/-- At the start of a trace the machine holds no values. -/
theorem Rests.mirrors (hs : s.alloc.regs.Represents job.set) (hfree : ∀ k i, ¬ s.alloc.regs.Has k i)
    (hneed : s.needFlag = false)
    {e : Env} {m : State} (he : e.values = #[])
    (haddress : ∀ i ∈ job.set.buffer.insts, Addresses e.slots.size i)
    (hm : Rests job.set.maxSlots e m) : Mirrors job 0 s e m where
  count := by rw [he]; rfl
  knows k i _ _ hk := by
    rw [he] at hk
    cases hk
  filled := by
    refine ⟨hm.size, hm.frame, fun {k y} hy hvalue _ => ?_,
      fun {k j} ⟨i, hi, _⟩ => (hfree k i hi).elim⟩
    obtain ⟨k', i, hi, -⟩ := hs.held hy (hvalue ▸ Registers.natCast_ne_none k)
    exact (hfree k' i hi).elim
  flag h := by
    rw [hneed] at h
    cases h
  slots := hm.slots
  room hi := haddress _ (Array.mem_of_getElem? hi)
  args := hm.args

/-- The flag is not needed at the start of a trace. -/
theorem Renders.unneeded (h : Renders job r l 0 P s) (hw : job.Whole) : s.needFlag = false := by
  refine Bool.eq_false_iff.mpr fun hneed => ?_
  obtain ⟨i, hi, hop⟩ := h.flag hneed
  obtain ⟨m, j, hm, -⟩ := hw.follows hi hop
  cases hm

/-- The exit code of the guards of a trace, in the order of the trace. -/
def Assembler.listed (s : Assembler) : List Stub := s.guards.toList.reverse.map stubOf

/-- The guard that a pass leaves through is found by the guards before it. -/
theorem listed_get {e e' : Env} {x : SideExit}
    (hcount : s.guards.size = job.set.buffer.guardsFrom 0) (he : e.values = #[])
    (hrun : Env.run .standard job.set.buffer.insts.toList e = .left x e') {g : Guard}
    (hg : s.guards[job.set.buffer.guardsFrom (e'.values.size + 1)]? = some g) :
    s.listed[(job.set.buffer.insts.toList.take e'.values.size).countP (·.op.isGuard)]? =
      some (stubOf g) := by
  obtain ⟨n, i, hi, hguard, -, hsize, -⟩ := Env.run_leaves hrun
  rw [he, Array.size_empty, Nat.zero_add] at hsize
  rw [hsize] at hg ⊢
  have hsplit : s.guards.size = (job.set.buffer.insts.toList.take n).countP (·.op.isGuard) +
      (job.set.buffer.guardsFrom (n + 1) + 1) := by
    rw [hcount, Buffer.guardsFrom, List.drop_zero]
    conv_lhs => rw [← List.take_append_drop n job.set.buffer.insts.toList]
    rw [List.countP_append, ← Buffer.guardsFrom,
      guardsFrom_eq (i := i) (by rwa [← Array.getElem?_toList]), hguard]
    rfl
  rw [Assembler.listed, List.getElem?_map,
    List.getElem?_reverse (by rw [Array.length_toList]; omega), Array.getElem?_toList,
    Array.length_toList, hsplit, show ∀ a b : Nat, a + (b + 1) - 1 - a = b from fun a b => by
      omega, hg]
  rfl

/-- The code of a trace once it is complete. -/
theorem Renders.coded (h : Renders job r l 0 P s) (hr : r.Laid) (hw : job.Whole)
    (hfree : ∀ k i, ¬ s.alloc.regs.Has k i)
    (hdoes : ∀ e m, Mirrors job 0 s e m →
      Does job s
      (P .exits) (requests body) e m (Env.run .standard (job.set.buffer.insts.toList.drop 0) e))
    {P' : Side → List Piece} (hc : Code.Laced .virtual r l c P') (hexits : P' .exits = P .exits)
    (hmain : P' .main = pieces ++ (body ++ p :: join)) {top entry loopTop : CodeAddr}
    (hjump : p.request = some (.jump top))
    {w : Writer} (hwriter : c.main.writer = some w) (hentry : entry = w.pos)
    (htop : loopTop.toNat = p.startOf body) {base : Nat}
    (hbase : job.exitIndex = exitPlaces job.set.buffer base) :
    Coded c.region ⟨c.main.pages.toList, c.exits.pages.toList, entry,
      loopTop, base, s.listed⟩ job.set.maxSlots (requests pieces) top
      job.set.buffer := by
  obtain ⟨stop, hstop, hfollows⟩ :=
    hc.followed hr (show (c.chain .main).writer = some w from hwriter)
  rw [hmain, ← hentry] at hfollows
  obtain ⟨hpieces, hrest⟩ := hfollows.split
  have hbytes : c.region.bytes = r.bytes := by
    unfold CodePages.bytes
    rw [hc.tidy.drawn.pageSize]
  obtain ⟨hbody, -, -, hshows, hnext⟩ := hrest.upTo
  rw [hjump] at hnext
  obtain ⟨hencode, hjoin⟩ := hnext
  have hlast : Follows .virtual c.region.mem p.stop p.place [p] := by
    refine ⟨rfl, hshows, ?_⟩
    rw [hjump]
    exact ⟨hencode, rfl⟩
  refine ⟨⟨pieces, rfl, htop ▸ hpieces, htop ▸ hrest.place_le hstop, fun q hq a ha => ⟨?_, id⟩⟩,
    requests body, p.stop,
    ⟨body ++ [p], ?_, ?_, ?_, fun q hq a ha => ⟨?_, id⟩⟩, fun e m he haddress hm => ?_⟩
  · rw [hbytes]
    exact hc.page (show q ∈ P' .main by rw [hmain]; simp [hq]) ha
  · rw [requests_append, requests_cons, hjump]
    rfl
  · rw [htop]
    exact hbody.append hlast
  · exact hjoin.place_le hstop
  · rw [hbytes]
    refine hc.page (show q ∈ P' .main from ?_) ha
    rw [hmain]
    rcases List.mem_append.mp hq with hq | hq
    · simp [hq]
    · simp [List.mem_singleton.mp hq]
  · have hrun := hdoes e m (hm.mirrors h.stage.regs hfree (h.unneeded hw) he haddress)
    rw [List.drop_zero] at hrun
    cases hpass : Env.run .standard job.set.buffer.insts.toList e with
    | on e' =>
      rw [hpass] at hrun
      exact hrun
    | left x e' =>
      rw [hpass] at hrun
      obtain ⟨g, start, more, stub, later, p, m₁, m₂, hg, hplace, hsplit, hexit, haway,
        hstub, hdeparted⟩ := hrun
      refine ⟨stubOf g, start, requests stub, m₁, m₂, listed_get h.count he hpass hg,
        hplace.trans ?_, ?_, haway, hstub, hdeparted⟩
      · obtain ⟨n, i, hi, -, -, hsize, -⟩ := Env.run_leaves hpass
        rw [he, Array.size_empty, Nat.zero_add] at hsize
        rw [hbase, exitPlaces_get (by rwa [hsize, ← Array.getElem?_toList])]
      refine hc.stub hr (by rw [hexits]; exact h.sites)
        (hexits.trans hsplit) hexit rfl fun g' hg' => ?_
      obtain ⟨g'', hg'', rfl⟩ := List.mem_map.mp hg'
      exact ⟨g'', Array.mem_toList_iff.mp (List.mem_reverse.mp hg''), rfl⟩
    | fault f => trivial

end Whole

namespace Assembler

variable {job : Job} {r : CodePages} {l : List Nat} {P : Side → List Piece} {s : Assembler}

/-- When a trace is done no value is live. -/
theorem checkDone_ensures (hs : s.alloc.regs.Represents job.set) :
    Ensures Anyhow (allocating Allocation.checkDone) s fun _ s' =>
    s' = s ∧ ∀ k i, ¬ s.alloc.regs.Has k i := by
  refine (allocating_ensures (Q := fun _ s' => s' = s.alloc ∧
    ∀ k i, ¬ s.alloc.regs.Has k i) (.get ?_)).mono
    fun _ s' ⟨hsame, halloc, hfree⟩ => ⟨hsame.trans (by rw [halloc]), hfree⟩
  have hnone : s.alloc.regs.index.findIdx? (·.isSome) = none → ∀ k i, ¬ s.alloc.regs.Has k i := by
    intro hfind k i hi
    have hmem := Array.mem_of_getElem? hi
    have hall := Array.findIdx?_eq_none_iff.mp hfind _ hmem
    cases hall
  dsimp only
  split
  · cases hfind : s.alloc.regs.index.findIdx? (·.isSome) with
    | some ref => exact .throw trivial
    | none => exact .pure ⟨rfl, hnone hfind⟩
  · next hlive =>
    refine .pure ⟨rfl, fun k i hi => ?_⟩
    rw [not_not, hs.lives, Array.countP_eq_zero] at hlive
    exact hlive _ (Array.mem_of_getElem? hi) rfl

/-- A jump is redirected. -/
theorem patch_ensures (site target : CodeAddr) :
    Ensures Anyhow (patch job site target) s fun _ s' =>
    ∃ mem, job.limits.backend.patch s.alloc.code.region.mem site target = .ok mem ∧
      s' = { s with alloc := { s.alloc
        with code := { s.alloc.code with region := { s.alloc.code.region with mem } } } } := by
  unfold Ensures
  rw [patch_eq]
  cases hpatch : job.limits.backend.patch s.alloc.code.region.mem site target with
  | ok mem => exact ⟨mem, rfl, rfl⟩
  | error f => trivial

/-- What a fragment does before its trace stands in front of it. -/
theorem prologue_ensures (hj : job.Ready r) (hc : Code.Laced .virtual r l s.alloc.code P)
    (hkind : ¬(job.fragment.kind == .branch) = true) :
    Ensures Anyhow (emit job .main (.prologue job.limits.maxSpillSlots)) s fun _ s' =>
      s' = { s with alloc := s'.alloc } ∧ ∃ (p : Piece) (join : List Piece),
        requests (p :: join) = introOf job.fragment job.limits.maxSpillSlots ∧
          Code.Laced .virtual r l s'.alloc.code (Code.fronted P .main (p :: join)) := by
  have hemit := (hc.emit hj.laid hj.page .main (.prologue job.limits.maxSpillSlots)).anyhow
  have hb : job.limits.backend = .virtual := hj.same ▸ hj.portable.backend
  unfold emit
  rw [hb]
  refine (allocating_ensures (Allocation.coding_ensures (E := Anyhow) hemit)).mono
    fun _ s' ⟨hsame, _, p, join, hp, hjoin, hc'⟩ => ⟨hsame, p, join, ?_, hc'⟩
  rw [requests_cons, hp, hjoin, introOf, if_neg hkind]
  rfl

/-- A trace that was compiled stands in memory. -/
theorem wholeTrace_coded (hj : job.Ready r) (hw : job.Whole) (hs : Stage job.set r l P s.alloc)
    (hguards : s.guards = #[])
    (hsite : s.loopSite = none) (hneed : s.needFlag = false) {base : Nat}
    (hbase : job.exitIndex = exitPlaces job.set.buffer base) :
    Ensures Anyhow (wholeTrace job) s fun a s' => ∃ top,
      Coded s'.alloc.code.region ⟨a.mainPages, a.exitPages, a.entry, a.loopTop, base,
        a.guards.map stubOf⟩
        job.set.maxSlots (introOf job.fragment job.limits.maxSpillSlots) top job.set.buffer ∧
        Closes job.set.buffer a.loopTop job.targetTop top := by
  have hb : job.limits.backend = .virtual := hj.same ▸ hj.portable.backend
  unfold wholeTrace
  refine (generateAll_renders hj hw hs hguards hsite hneed).bind fun _ s₀ ⟨P, h⟩ => ?_
  refine (checkDone_ensures h.stage.regs).bind fun _ s₁ ⟨h₁, hfree⟩ => ?_
  subst h₁
  have hpos := (h.stage.code.pos hj.laid hj.page .main).anyhow
  rw [hj.same, hb] at hpos
  obtain ⟨body, join, term, hmain, hends, hdoes⟩ := h.does
  rw [hb]
  refine (allocating_ensures (Allocation.coding_ensures (E := Anyhow) hpos)).bind
    fun loopTop s₃ ⟨hsame₃, hregs₃, w, hc₃, hw₃, htop⟩ => .get ?_
  obtain ⟨stop, -, hfollows⟩ := hc₃.followed hj.laid hw₃
  rw [hmain, ← htop] at hfollows
  have hstart : loopTop.toNat = term.startOf body := hfollows.upTo.2.1
  extract_lets rest entered
  -- what is left once the jump at the end leads to where it should
  have hentered : ∀ (s₄ : Assembler) (P₄ : Side → List Piece) (p : Piece) (top : CodeAddr),
    s₄.guards = s₁.guards →
      Code.Laced .virtual r l s₄.alloc.code P₄ → P₄ .exits = P .exits →
        P₄ .main = body ++ p :: join →
      p.request = some (.jump top) → p.place = term.place → s₄.alloc.code.main.writer = some w →
        Closes job.set.buffer loopTop job.targetTop top →
      Ensures Anyhow (entered ()) s₄ fun a s' => ∃ top,
        Coded s'.alloc.code.region ⟨a.mainPages, a.exitPages, a.entry, a.loopTop, base,
          a.guards.map stubOf⟩
          job.set.maxSlots (introOf job.fragment job.limits.maxSpillSlots) top job.set.buffer ∧
              Closes job.set.buffer a.loopTop job.targetTop top := by
    intro s₄ P₄ p top hguards₄ hc₄ hexits₄ hmain₄ hjump hplace hwriter₄ hleads
    have hstart₄ : loopTop.toNat = p.startOf body := by
      rw [hstart]
      cases body with
      | nil => exact hplace.symm
      | cons q body => rfl
    have hlisted : s₁.listed = s₄.guards.toList.reverse.map stubOf := by
      rw [Assembler.listed, hguards₄]
    unfold entered
    split
    · next hkind =>
      refine .pure_bind (.get (.pure ⟨top, ?_, hleads⟩))
      have hcoded := h.coded hj.laid hw hfree hdoes hc₄ hexits₄
        (show P₄ .main = [] ++ _ from hmain₄) hjump hwriter₄ htop hstart₄ hbase
      rw [hlisted] at hcoded
      rw [introOf, if_pos hkind]
      exact hcoded
    · next hkind =>
      refine (prologue_ensures hj hc₄ hkind).bind
        fun _ s₅ ⟨hsame₅, p', join', hrequests, hc₅⟩ => ?_
      have hpos₅ := (hc₅.pos hj.laid hj.page .main).anyhow
      refine (allocating_ensures (Allocation.coding_ensures (E := Anyhow) hpos₅)).bind
        fun entry s₆ ⟨hsame₆, _, w', hc₆, hw₆, hentry⟩ => ?_
      unfold rest
      refine .get (.pure ⟨top, ?_, hleads⟩)
      have hcoded := h.coded hj.laid hw hfree hdoes hc₆
        ((Code.fronted_of_ne P₄ (by decide) _).trans hexits₄)
        (show Code.fronted P₄ .main (p' :: join') .main =
          (p' :: join') ++ _ by rw [Code.fronted_self, hmain₄]) hjump hw₆ hentry hstart₄ hbase
      have hguards₆ : s₆.guards = s₄.guards := by rw [hsame₆, hsame₅]
      rw [hlisted, ← hguards₆, hrequests] at hcoded
      exact hcoded
  obtain ⟨n, i, hsize, hi, ⟨hop, ⟨site, hloop, hplace⟩, t, hjump⟩ | ⟨hop, hloop, hjump⟩⟩ := hends
  · have hloop₃ : s₃.loopSite = some site := by rw [hsame₃, hloop]
    rw [hloop₃]
    refine (patch_ensures site loopTop).bind fun _ s₄ ⟨mem, hpatch, hs₄⟩ => ?_
    subst hs₄
    rw [hb] at hpatch
    have hc₄ := hc₃.patched hj.laid hmain hjump hplace hpatch
    refine hentered _ _ (term.redirected .virtual site loopTop) loopTop (by rw [hsame₃]) hc₄
      (Function.update_of_ne (by decide) ..) (Function.update_self ..) rfl rfl hw₃ ⟨n, i, hsize,
        hi, .inl ⟨hop, rfl⟩⟩
  · have hloop₃ : s₃.loopSite = none := by rw [hsame₃, hloop]
    rw [hloop₃]
    exact hentered s₃ P term _ (by rw [hsame₃]) hc₃ rfl hmain hjump rfl hw₃ ⟨n, i, hsize,
      hi, .inr ⟨hop, rfl⟩⟩

end Assembler

/-! ### A fragment that was compiled -/

/-- Limits for the portable machine. -/
structure Limits.Portable (limits : Limits) : Prop where
  backend : limits.backend = .virtual
  target : ∃ n, limits.target = virtualTarget.limit n
  nonneg : 0 ≤ limits.maxSpillSlots
  slots : limits.maxSpillSlots < 2 ^ 28

/-- A valid trace that ends with a jump and whose instructions have what they need can be
compiled. -/
theorem whole_of_valid {b : Buffer} (hvalid : b.validate = .ok ()) (hs : b.Supplied)
    (hends : b.insts.back?.any (·.op.isTerminal) = true) (limits : Limits) (f : Fragment)
    (target : Option Fragment) :
    (jobOf limits .standard f target b).Whole := by
  refine ⟨fun {n i} hi => ⟨hi, Buffer.known_of_valid hvalid hi, fun ref href => ?_,
    hs.insts i (Array.mem_of_getElem? hi)⟩,
    fun {n i} hi => Buffer.terminal_last hvalid hi, ?_, fun {n i} hi => (hs.placed n i hi).follows⟩
  · rcases List.mem_append.mp href with href | href
    · exact Buffer.operand_lt hvalid hi href
    · exact (hs.placed n i hi).snapshot ref href
  · exact ends_any hends

/-- The code of a trace that was compiled does what the trace says. -/
theorem assemble_coded {limits : Limits} {f : Fragment} {target : Option Fragment}
    {shop shop' : Workshop} {l : List Nat}
    {b : Buffer} {a : Assembly} (hp : limits.Portable) (hf : shop.region.Frees l)
    (hlaid : shop.region.Laid)
    (hpage : 1024 ≤ shop.region.pageSize) (htrace : f.trace = some b) (hs : b.Supplied)
    (hends : b.insts.back?.any (·.op.isTerminal) = true)
    (h : assemble limits .standard f target shop = .ok a shop') :
    ∃ top, Coded shop'.region ⟨a.mainPages, a.exitPages, a.entry, a.loopTop, f.exitBase,
      a.guards.map stubOf⟩
      limits.maxSpillSlots (introOf f limits.maxSpillSlots) top b ∧
      Closes b a.loopTop (target.elim 0 (·.loopTop)) top := by
  rcases assemble_eq limits .standard f target shop
    with ⟨e, -, herror⟩ | ⟨buffer, hbuffer, hvalid, heq⟩
  · rw [h] at herror
    cases herror
  obtain rfl : buffer = b := Option.some.inj (hbuffer.symm.trans htrace)
  rw [h] at heq
  let job := jobOf limits .standard f target buffer
  have hready : job.Ready shop.region := ⟨hlaid, hpage, rfl, ⟨hp.backend, hp.target, hp.slots⟩, rfl⟩
  have hregs : (startOf limits buffer shop).alloc.regs.Represents job.set :=
    Registers.represents_create limits.maxReservations.toNat hp.nonneg
  have hstage : Stage job.set shop.region l (fun _ => []) (startOf limits buffer shop).alloc :=
    ⟨hregs, Code.laced_start hlaid hf⟩
  have hcoded :=
    Assembler.wholeTrace_coded hready (whole_of_valid hvalid hs hends _ _ _) hstage rfl rfl rfl rfl
  unfold handBack at heq
  cases hrun : Assembler.wholeTrace job (startOf limits buffer shop) with
  | ok a' s =>
    rw [hrun] at heq
    cases heq
    exact (ensures_ok hrun).mp hcoded
  | error e s =>
    rw [hrun] at heq
    cases e <;> cases heq

end LoopTracer.Compile
