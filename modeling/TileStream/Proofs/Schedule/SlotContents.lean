import TileStream.Proofs.Schedule.Iterations

/-! # What the slots hold while the loop runs

A run of the tile loop is watched together with the contents of the input and
weight slots: the prologue fills slot A of both, and an iteration fills the
slots that it loads. `Ready` is what the slots hold when iteration `i` begins,
`ready_load` says that one iteration makes them ready for the next, and
`watched_from` follows a run from there to its end. -/
namespace TileStream

open Grid

/-- What each input and weight slot holds; `none` before it is first filled. -/
structure SlotContents where
  input : Parity → Option Coord
  weights : Parity → Option Nat

namespace SlotContents

/-- The prologue has put the first tile and the first channel block in slot A. -/
def prologue : SlotContents where
  input p := if p = .a then some .origin else none
  weights p := if p = .a then some 0 else none

/-- An iteration fills the input slot that it loads with its load tile, and when
it reloads weights the weight slot with the channel block of that tile. -/
def load (s : SlotContents) (i : Iteration) : SlotContents where
  input p := match i.load with
    | some tile => if p = i.slots.input.load then some tile else s.input p
    | none => s.input p
  weights p := match i.load with
    | some tile =>
      if i.reloadsWeights ∧ p = i.slots.weights.load then some tile.outChannel else s.weights p
    | none => s.weights p

end SlotContents

/-- The channel block that an iteration loads, if it loads one. -/
def Iteration.loadedBlock? (i : Iteration) : Option Nat :=
  if i.reloadsWeights then i.load.map Coord.outChannel else none

/-- One iteration with the loop and the slot contents that it finds. -/
structure Watch where
  loop : TileLoop
  contents : SlotContents
  iteration : Iteration

/-- A run of the loop to its end, iteration by iteration. -/
inductive Watched : TileLoop → SlotContents → List Watch → TileLoop → SlotContents → Prop
  | finished {l : TileLoop} {s : SlotContents} : l.next = .ok none → Watched l s [] l s
  | step {l l' last : TileLoop} {s final : SlotContents} {i : Iteration} {rest : List Watch} :
      l.next = .ok (some (i, l')) → Watched l' (s.load i) rest last final →
      Watched l s (⟨l, s, i⟩ :: rest) last final

/-- What iteration number `i` over a grid has to be. Its slots hold what it
executes when it begins, and still do once its own loads have landed. -/
structure Watch.Scheduled (w : Watch) (g : Grid) (i : Nat) : Prop where
  index : w.iteration.index = i
  exec : g.tiles[i]? = some w.iteration.exec
  load : w.iteration.load = g.tiles[i + 1]?
  reloads : w.iteration.reloadsWeights = true ↔
    ∃ next, g.tiles[i + 1]? = some next ∧ next.channelPair ≠ w.iteration.exec.channelPair
  remaining : w.loop.remaining = g.tiles.length - i
  holds : ∀ s ∈ [w.contents, w.contents.load w.iteration],
    s.input w.iteration.slots.input.exec = some w.iteration.exec ∧
      s.weights w.iteration.slots.weights.exec = some w.iteration.exec.outChannel
  inputApart : w.iteration.slots.input.load ≠ w.iteration.slots.input.exec
  weightsApart : w.iteration.slots.weights.load ≠ w.iteration.slots.weights.exec

namespace SlotContents

/-- The slots hold tile `i` and its channel block where iteration `i` executes. -/
structure Ready (s : SlotContents) (g : Grid) (i : Nat) : Prop where
  input : s.input (.of i) = some (g.tileAt i)
  weights : s.weights (.of (g.blockAt i)) = some (g.blockAt i)

theorem ready_prologue (g : Grid) : prologue.Ready g 0 := by
  refine ⟨?_, ?_⟩
  · rw [tileAt_zero]; rfl
  · rw [blockAt_zero]; rfl

/-- The loads of an iteration spare the slots it executes from. -/
theorem Ready.load_same {s : SlotContents} {g : Grid} {i : Nat} (h : s.Ready g i) :
    (s.load (g.iterationAt i)).Ready g i := by
  refine ⟨?_, ?_⟩
  · simp only [load, iterationAt, RoleSlots.ofExec, if_neg (Parity.ne_flip (.of i)), h.input]
    split <;> rfl
  · simp only [load, iterationAt, RoleSlots.ofExec, Parity.ne_flip, and_false, if_false, h.weights]
    split <;> rfl

/-- The loads of an iteration make the slots ready for the next. -/
theorem ready_load {s : SlotContents} {g : Grid} (hg : g.Regular) {i : Nat} (hi : i + 1 < g.size)
    (h : s.Ready g i) : (s.load (g.iterationAt i)).Ready g (i + 1) := by
  have hload : (g.iterationAt i).load = some (g.tileAt (i + 1)) := if_pos hi
  refine ⟨?_, ?_⟩
  · simp only [load, hload]
    rw [if_pos]
    exact Parity.of_succ i
  · simp only [load, hload]
    rcases blockAt_succ hg i with hb | hb
    · -- the channel block stays, and its slot is not the one to be filled
      have hstay : (g.iterationAt i).reloadsWeights = false := by
        simp [iterationAt, changesAt, hb]
      rw [hstay, if_neg (by simp), hb, h.weights]
    · have hchange : (g.iterationAt i).reloadsWeights = true := by
        simp [iterationAt, changesAt, hb, hi]
      rw [hchange, if_pos ⟨rfl, by rw [hb]; exact Parity.of_succ _⟩]
      rfl

end SlotContents

/-- The blocks that iterations `i`, `i + 1`, … load are the ones after the block
in use, in order. -/
theorem loadedBlock_iterationAt (g : Grid) (i : Nat) :
    (g.iterationAt i).loadedBlock? =
      if g.changesAt i then some (g.weightsAt (i + 1)) else none := by
  unfold Iteration.loadedBlock? iterationAt
  by_cases hc : g.changesAt i = true
  · have hnext : i + 1 < g.size := by
      simp only [changesAt, Bool.and_eq_true, decide_eq_true_eq] at hc
      exact hc.1
    simp only [hc, if_true, tileAfter, if_pos hnext, Option.map_some, weightsAt_of_lt hnext]
    rfl
  · simp only [hc]
    rfl

theorem scheduled_iterationAt {g : Grid} (hg : g.Regular) {i : Nat} (hi : i < g.size)
    {s : SlotContents} (hs : s.Ready g i) :
    Watch.Scheduled ⟨g.loopAt i, s, g.iterationAt i⟩ g i := by
  have hload : g.tiles[i + 1]? = g.tileAfter i := by
    unfold tileAfter
    split
    · rename_i hnext; exact getElem?_tiles hg hnext
    · exact List.getElem?_eq_none (by rw [length_tiles]; omega)
  refine ⟨rfl, getElem?_tiles hg hi, hload.symm, ?_, ?_, ?_, ?_, ?_⟩
  · rw [hload]
    show g.changesAt i = true ↔ _
    rw [← reloads_tileAfter, Option.any_eq_true]
    simp [Coord.changesChannelBlock, iterationAt]
  · rw [length_tiles]; rfl
  · intro t ht
    have hready : t.Ready g i := by
      simp only [List.mem_cons, List.not_mem_nil, or_false] at ht
      rcases ht with rfl | rfl
      · exact hs
      · exact hs.load_same
    exact ⟨hready.input, hready.weights⟩
  · exact Parity.flip_ne _
  · exact Parity.flip_ne _

/-- From slots that are ready for iteration `i` the run goes on to its end:
every iteration is as scheduled, and the weights that are loaded are those of
the channel blocks still to come, each once and in order. -/
theorem watched_from {g : Grid} (hg : g.Regular) :
    ∀ (k i : Nat) (s : SlotContents), i + k = g.size → (0 < k → s.Ready g i) →
      ∃ watches final, Watched (g.loopAt i) s watches (g.loopAt g.size) final ∧
        watches.length = k ∧
        (∀ j w, watches[j]? = some w →
          w.iteration = g.iterationAt (i + j) ∧ w.Scheduled g (i + j)) ∧
        watches.filterMap (·.iteration.loadedBlock?) =
          List.range' (g.weightsAt i + 1) (g.channels - 1 - g.weightsAt i)
  | 0, i, s, hk, _ => by
    have hi : i = g.size := by omega
    subst hi
    refine ⟨[], s, .finished (TileLoop.next_loopAt_size g), rfl, by simp, ?_⟩
    rw [weightsAt_size hg, Nat.sub_self]
    rfl
  | k + 1, i, s, hk, hs => by
    have hi : i < g.size := by omega
    have hready := hs (Nat.succ_pos k)
    obtain ⟨watches, final, hrun, hlen, hall, hloaded⟩ :=
      watched_from hg k (i + 1) (s.load (g.iterationAt i)) (by omega)
        (fun hpos => SlotContents.ready_load hg (by omega) hready)
    refine ⟨⟨g.loopAt i, s, g.iterationAt i⟩ :: watches, final,
      .step (TileLoop.next_loopAt hg hi) hrun, by rw [List.length_cons, hlen], ?_, ?_⟩
    · intro j w hw
      cases j with
      | zero =>
        cases hw
        exact ⟨rfl, scheduled_iterationAt hg hi hready⟩
      | succ j =>
        have := hall j w hw
        rwa [show i + 1 + j = i + (j + 1) by omega] at this
    · have hsucc := weightsAt_succ hg hi
      have hblock := weightsAt_of_lt hi
      have hlt := blockAt_lt hi
      have hbound : g.weightsAt (i + 1) ≤ g.channels - 1 := Nat.min_le_right _ _
      rw [List.filterMap_cons, loadedBlock_iterationAt g i, hloaded]
      by_cases hc : g.changesAt i = true
      · rw [if_pos hc] at hsucc
        have hcount : g.channels - 1 - g.weightsAt i = g.channels - 1 - g.weightsAt (i + 1) + 1 := by
          omega
        rw [if_pos hc, hcount, List.range'_succ, hsucc, hblock]
      · rw [if_neg hc] at hsucc
        rw [if_neg hc, hsucc, hblock]

/-- **Slots hold what an iteration executes.** Over every regular grid the loop
runs to its end in one iteration for each tile, in loop order; every iteration
finds its tile and channel block in the slots that it executes from and loads
into the others; output slots alternate; and every channel block is loaded once,
the first by the prologue. -/
theorem loop_executes_from_filled_slots (g : Grid) (hg : g.Regular) :
    ∃ first watches last final,
      TileLoop.start g = .ok first ∧ Watched first .prologue watches last final ∧
      watches.map (·.iteration.exec) = g.tiles ∧
      (∀ (i : Nat) (w : Watch), watches[i]? = some w → w.Scheduled g i) ∧
      (∀ (i : Nat) (v w : Watch), watches[i]? = some v → watches[i + 1]? = some w →
        w.iteration.slots.output ≠ v.iteration.slots.output) ∧
      last.remaining = 0 ∧ last.prefetches = g.tiles.length - 1 ∧
      last.weightReloads = g.channels - 1 ∧
      0 :: watches.filterMap (·.iteration.loadedBlock?) = List.range g.channels := by
  obtain ⟨watches, final, hrun, hlen, hall, hloaded⟩ :=
    watched_from hg g.size 0 .prologue (Nat.zero_add _) (fun _ => SlotContents.ready_prologue g)
  simp only [Nat.zero_add] at hall
  refine ⟨g.loopAt 0, watches, g.loopAt g.size, final, TileLoop.start_eq hg, hrun, ?_,
    fun i w hw => (hall i w hw).2, ?_, ?_, ?_, weightsAt_size hg, ?_⟩
  · apply List.ext_getElem?
    intro i
    by_cases hi : i < g.size
    · obtain ⟨w, hw⟩ : ∃ w, watches[i]? = some w :=
        ⟨_, List.getElem?_eq_getElem (by rw [hlen]; exact hi)⟩
      rw [List.getElem?_map, hw, (hall i w hw).2.exec, Option.map_some]
    · rw [List.getElem?_eq_none (by rw [List.length_map, hlen]; omega),
        List.getElem?_eq_none (by rw [length_tiles]; omega)]
  · intro i v w hv hw
    rw [(hall i v hv).1, (hall (i + 1) w hw).1]
    exact Parity.of_succ_ne i
  · exact Nat.sub_self _
  · rw [length_tiles]
    exact Nat.min_eq_right (Nat.sub_le _ _)
  · obtain ⟨n, hn⟩ : ∃ n, g.channels = n + 1 := Nat.exists_eq_add_one.mpr hg.channels_pos
    rw [hloaded, weightsAt_of_lt (size_pos hg), blockAt_zero, hn, List.range_eq_range',
      List.range'_succ]
    rfl

/-- Two channel blocks of two rows: the weights are reloaded once, on the way. -/
theorem loop_executes_from_filled_slots_two_blocks :
    Regular ⟨2, 2, 1⟩ ∧ ∃ first watches last final,
      TileLoop.start ⟨2, 2, 1⟩ = .ok first ∧ Watched first .prologue watches last final ∧
      watches.map (·.iteration.exec) =
        [.ofBlock 0 0 0, .ofBlock 0 1 0, .ofBlock 1 0 0, .ofBlock 1 1 0] ∧
      last.prefetches = 3 ∧ last.weightReloads = 1 := by
  have hg : Regular ⟨2, 2, 1⟩ := ⟨by decide, by decide, by decide, by decide⟩
  obtain ⟨first, watches, last, final, hfirst, hrun, htiles, _, _, _, hpre, hrel, _⟩ :=
    loop_executes_from_filled_slots ⟨2, 2, 1⟩ hg
  exact ⟨hg, first, watches, last, final, hfirst, hrun, htiles, hpre, hrel⟩

end TileStream
