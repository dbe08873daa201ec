import LoopTracer.Proofs.Monitor.Conservation
import LoopTracer.Proofs.Number.Narrowing

/-! How large the code region is.

Operations take pages, give them back and write to them, but the region stays as it was made
(`run_tended`). Unless its size overflows, it is made of the pages that the settings ask for
(`Reached.sized`). -/
namespace LoopTracer.Monitor

open Trace Compile FragmentCache CodePages

variable {V : Immediate → Prop} {B : FragmentId → LoopKey → Prop} {config : Config}
  {m m' : Monitor} {id : FragmentId}

theorem Failed.tended {anchor : Option GuardId} (hfailed : Failed id anchor m m') :
    Tended m.cache.region m'.cache.region := by
  cases hfailed with
  | loop => exact refl_of Tended m.cache.region
  | branch _ _ _ _ _ _ hdiscard => exact ((discard_reduces _).ok hdiscard).region
  | gone => exact refl_of Tended m.cache.region

theorem Recorded.tended {α : Type} {x : Recording α} {result : Except MonitorError α}
    (hr : Recorded x m result m') :
    Tended m.cache.region m'.cache.region := by
  cases hr with
  | done | idle | stray => exact refl_of Tended m.cache.region
  | failed _ _ hfailed => exact hfailed.tended

theorem Chosen.tended {key : LoopKey} {types : TypeMap} (hc : Chosen key types m id m') :
    Tended m.cache.region m'.cache.region := by
  have hmade : ∀ {c : FragmentCache} {j : FragmentId} {made : Bool},
    m.cache.getOrCreate key = (c, j, made) →
      c.region = m.cache.region := by
    intro c j made hget
    unfold getOrCreate at hget
    split at hget <;> cases hget <;> rfl
  cases hc with
  | found hget | typed hget =>
    have hregion := hmade hget
    exact hregion ▸ refl_of Tended _
  | added hget _ hadd =>
    have hregion := hmade hget
    unfold addPeer at hadd
    split at hadd
    · cases hadd
    · cases hadd
      exact hregion ▸ refl_of Tended _

theorem loopEdge_tended (key : LoopKey) (types : TypeMap) :
    Ensures Anyhow (loopEdge key types) m fun _ m' => Tended m.cache.region m'.cache.region := by
  refine (loopEdge_loops key types).mono fun b m' hlooped => ?_
  cases hlooped with
  | skipped => exact refl_of Tended m.cache.region
  | chosen _ hchosen | counted _ hchosen => exact hchosen.tended
  | begun _ hchosen _ _ hbegun =>
    obtain ⟨f, root, r, stats, -, -, -, rfl⟩ := hbegun
    exact hchosen.tended

theorem Expelled.tended {on : FragmentId} (he : Expelled on m m') :
    Tended m.cache.region m'.cache.region := by
  obtain ⟨hyielded, hdrop⟩ := he
  have hdropped := ((invalidate_reduces on).ok hdrop).region
  cases hyielded with
  | idle | apart | loop => exact hdropped
  | branch _ _ _ _ hdiscard =>
    exact trans_of Tended ((discard_reduces _).ok hdiscard).region hdropped

theorem Cleared.tended (hc : Cleared m m') : Tended m.cache.region m'.cache.region := by
  obtain ⟨-, hflush⟩ := hc
  exact (flush_reduces.ok hflush).region

theorem Deployed.tended {anchor : Option GuardId} {a : Assembly} (hd : Deployed id anchor a m m') :
    Tended m.cache.region m'.cache.region := by
  have hinstalled : ∀ {c : FragmentCache}, FragmentCache.install id a m.cache = .ok () c →
      Tended m.cache.region c.region := by
    intro c hinstall
    obtain ⟨c₁, hreduced, rfl⟩ := install_reduces hinstall
    exact hreduced.region
  cases hd with
  | loop hinstall => exact hinstalled hinstall
  | branch hinstall _ hpromote =>
    exact trans_of Tended (hinstalled hinstall)
      ((promote_reduces (F := Fragment.Shrunk) _ _).ok hpromote).region

theorem assemble_tended (limits : Limits) (helpers : HelperTable) (f : Fragment) :
    Keeps (fun c c' : FragmentCache => Tended c.region c'.region) (fun _ => True)
    (FragmentCache.assemble limits helpers f) := by
  intro c
  have hwork := assemble_restocks limits helpers f (f.treeTarget.bind c.fragment?)
    { region := c.region, guardCount := c.guardCount, exits := c.exits }
  unfold KeepsAt at hwork ⊢
  rw [FragmentCache.assemble_eq]
  cases hc : Compile.assemble limits helpers f (f.treeTarget.bind c.fragment?)
      { region := c.region, guardCount := c.guardCount, exits := c.exits } with
  | ok a shop =>
    rw [hc] at hwork
    exact hwork.region
  | error e shop =>
    rw [hc] at hwork
    exact ⟨hwork.1.region, trivial⟩

theorem endRecording_tended (stop : TypeMap) :
    Ensures Anyhow (endRecording stop) m fun _ m' => Tended m.cache.region m'.cache.region := by
  refine (endRecording_ends stop).mono fun result m' hm' => ?_
  cases hm' with
  | idle => exact refl_of Tended m.cache.region
  | unfinished _ _ _ hrecorded => exact hrecorded.tended
  | compiled _ _ _ _ _ hassemble hdeployed =>
    exact trans_of Tended ((assemble_tended _ _ _).ok hassemble) hdeployed.tended
  | rejected _ _ _ _ _ hassemble _ hfailed hspace =>
    have hfailed := trans_of Tended ((assemble_tended _ _ _).error hassemble).1 hfailed.tended
    rcases hspace with ⟨-, rfl⟩ | ⟨-, key, hflush⟩
    · exact hfailed
    · obtain ⟨stats, hcleared⟩ := (ensures_ok hflush).mp (outOfSpace_clears key)
      exact trans_of Tended hfailed hcleared.tended

theorem handleExit_tended (g : GuardId) :
    Ensures Anyhow (handleExit g) m fun _ m' => Tended m.cache.region m'.cache.region := by
  have hattached : ∀ {r : Guard} {source : Fragment} {id : FragmentId} {c : FragmentCache},
      FragmentCache.attachChild source r (passed m.cache r source) = .ok id c →
          Tended m.cache.region c.region := by
    intro r source id c hattach
    unfold attachChild at hattach
    split at hattach
    · cases hattach
    · cases hattach
      exact refl_of Tended m.cache.region
  refine (handleExit_exits g).mono fun b m' hexited => ?_
  cases hexited with
  | stray | counted => exact refl_of Tended m.cache.region
  | dropped _ _ hdrop => exact ((ensures_ok hdrop).mp (invalidate_expels _)).tended
  | refused _ _ _ hattach _ hdiscard =>
    exact trans_of Tended (hattached hattach) ((discard_reduces _).ok hdiscard).region
  | branched _ _ _ hattach _ hbegun =>
    have htended := hattached hattach
    obtain ⟨f, root, r, stats, -, -, -, rfl⟩ := hbegun
    exact htended

/-- One operation. -/
theorem run_tended (hs : m.helpers = .standard) {op : Operation} (hrun : op.run m = .ok () m') :
    Tended m.cache.region m'.cache.region := by
  cases op with
  | loopEdge key types =>
    obtain ⟨b, hok⟩ := ignored_eq_ok hrun
    exact (ensures_ok hok).mp (loopEdge_tended key types)
  | record p =>
    obtain ⟨b, hok⟩ := ignored_eq_ok hrun
    unfold record at hok
    exact ((ensures_ok hok).mp (.get (onRecorder_records _))).tended
  | finish stop =>
    obtain ⟨result, hok⟩ := ignored_eq_ok hrun
    exact (ensures_ok hok).mp (endRecording_tended stop)
  | abort a =>
    rcases (ensures_ok hrun).mp (abortRecording_ends a) with ⟨rfl, -⟩ | ⟨id, -, -, hfailed⟩
    · exact refl_of Tended m'.cache.region
    · exact hfailed.tended
  | execute fuel id slots =>
    obtain ⟨b, hok⟩ := ignored_eq_ok hrun
    exact ((keepsAt_ok hok).mp (execute_ran hs fuel id slots)).cache ▸ refl_of Tended m.cache.region
  | exit g =>
    obtain ⟨b, hok⟩ := ignored_eq_ok hrun
    exact (ensures_ok hok).mp (handleExit_tended g)
  | invalidate id =>
    obtain ⟨b, hok⟩ := ignored_eq_ok hrun
    exact ((ensures_ok hok).mp (invalidate_expels id)).tended
  | flush => exact ((ensures_ok hrun).mp flush_clears).tended

/-- The region was not given up, and it has the pages that the settings ask for. -/
structure Spacious (config : Config) (r : CodePages) : Prop where
  last : r.last = none
  size : (r.pages.size : Int) = config.maxCodePages
  pageSize : r.pageSize = config.pageSize

theorem create_spacious (h : Monitor.create config = .ok m) : Spacious config m.cache.region := by
  obtain ⟨-, r, r', hr, hb, rfl⟩ := create_eq h
  obtain ⟨hcount, rfl⟩ := CodePages.create_eq hr
  unfold installBailout at hb
  dsimp only at hb
  split at hb
  · cases hb
  · cases hb
    refine ⟨rfl, ?_, rfl⟩
    show (((fresh (fresh config.maxCodePages.toNat).size).size : Nat) : Int) = config.maxCodePages
    rw [fresh_size, fresh_size, Int.toNat_of_nonneg (by omega)]

theorem Spacious.tended {r r' : CodePages} (h : Spacious config r) (hr : r.Ruled)
    (ht : Tended r r') : Spacious config r' :=
  ⟨(ht.last hr.frees).trans h.last, (congrArg Nat.cast (ht.size hr.frees)).trans h.size,
    (ht.pageSize hr.frees).trans h.pageSize⟩

theorem Reached.spacious {permitted : Monitor → Operation → Prop} (h : Reached permitted config m) :
    Accounted (fun _ => True) (fun _ _ => True) m ∧ Spacious config m.cache.region := by
  induction h with
  | start h => exact ⟨create_accounted h, create_spacious h⟩
  | step _ _ hrun ih =>
    exact ⟨ih.1.step hrun, ih.2.tended ih.1.filed.region (run_tended ih.1.helpers hrun)⟩

/-- Unless its size overflows, the memory of the region is that of its pages. -/
theorem Spacious.sized {r : CodePages} (h : Spacious config r) (hr : r.Ruled)
    (hfits : config.maxCodePages * config.pageSize < 2 ^ 63) : r.Sized := by
  have hpositive := hr.positive
  have hnonneg : (0 : Int) ≤ r.pages.size * r.pageSize := Int.mul_nonneg (by omega) (by omega)
  have hbound : (r.pages.size : Int) * r.pageSize < 2 ^ 63 := by
    rw [h.size, h.pageSize]; exact hfits
  have hsize : (r.mem.size : Int) = r.pages.size * r.pageSize := by
    rw [hr.size h.last, signed64_eq (by omega) hbound, Int.toNat_of_nonneg hnonneg]
  exact ⟨hpositive, hsize, by omega, hr.valid⟩

end LoopTracer.Monitor
