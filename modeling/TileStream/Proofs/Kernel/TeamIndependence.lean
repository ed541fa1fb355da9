import Mathlib.Tactic.Choose
import TileStream.Proofs.Kernel.Contract
import TileStream.Proofs.Kernel.Depthwise

/-! # A team leaves what one unit leaves

The units of a team divide the channels of a call, and each of them stores the
values of its channels (`kernel_eq_store`). The stores of all units together are
a rearrangement of those of a unit that has the call to itself. No unit writes
what another reads, so the order in which the units run does not matter
(`forM_kernel`), and neither does their number. -/
namespace TileStream.Depthwise

open Unsigned Checked Finset

variable {c : Call} {m n single : Memory} {o : Operands} {y x channel : Nat}

/-! ## Values -/

section Values

variable {input weights : Nat → UInt8} {kappa lambda : Nat → Int32}

theorem tapValue_of_empty (hempty : c.inputDims.rows * c.inputDims.cols = 0) (kh kw : Nat) :
    tapValue c input weights y x channel kh kw = 0 := by
  unfold tapValue
  split
  · rename_i row col hrow hcol
    have hrows := landing_lt hrow
    have hcols := landing_lt hcol
    rcases Nat.mul_eq_zero.mp hempty with hzero | hzero <;> omega
  · rfl

/-- No tap falls inside an axis without positions. -/
theorem position_zero_ends (stride : Nat) (shift : Int) (out tap : Nat) :
    Ends (fun _ => True) (· = none) (position stride 0 shift out tap) := by
  refine ends_of_forall_ok fun place h => ?_
  obtain ⟨_, -, h⟩ := bind_eq_ok.mp h
  obtain ⟨_, -, h⟩ := bind_eq_ok.mp h
  obtain ⟨p, -, h⟩ := bind_eq_ok.mp h
  rw [← pure_eq_ok.mp h, if_neg (by rw [signed_of_lt (by decide)]; omega)]

theorem accumulate_of_empty (hempty : c.inputDims.rows * c.inputDims.cols = 0) :
    Ends (fun _ => True) (· = 0) (accumulate c o y x channel) := by
  have hskip : ∀ {k : Nat} {step : Int → Nat → Checked Int},
      (∀ acc, ∀ i < k, Ends (fun _ => True) (· = acc) (step acc i)) → ∀ acc,
        Ends (fun _ => True) (· = acc) ((List.range k).foldlM step acc) := by
    intro k step hstep acc
    have hzero : ∀ i < k, |(0 : Int)| ≤ ((0 : Nat) : Int) := fun _ _ => abs_zero.le
    have hsum := foldlM_ends_sum (f := fun _ => 0) hzero (fun acc i hi _ => by
      rw [Int.add_zero]
      exact hstep acc i hi) acc (.inr trivial)
    rwa [sum_const_zero, Int.add_zero] at hsum
  unfold accumulate
  refine hskip (fun acc kh _ => ?_) 0
  rcases Nat.mul_eq_zero.mp hempty with hrows | hcols
  · rw [hrows]
    exact (position_zero_ends ..).bind_eq rfl
  · -- a row is found, but no column in it
    have hrow : Ends (fun _ => True) (fun _ => True)
        (position c.stride c.inputDims.rows (rowShift c) y kh) := ends_of_forall_ok fun _ _ => trivial
    refine hrow.bind fun place _ => ?_
    cases place with
    | none => exact rfl
    | some row =>
      refine hskip (fun acc kw _ => ?_) acc
      rw [hcols]
      exact (position_zero_ends ..).bind_eq rfl

/-- What the kernel has added up is the sum over the taps. -/
theorem accumulate_inv {acc : Int} (htop : rowPad c < 0x8000000000000000)
    (hleft : colPad c < 0x8000000000000000) (hin : c.inputDims.channels = c.channels)
    (hsize : c.inputDims.size ≤ maxBuffer) (hreads : Reads c o input weights kappa lambda)
    (hchannel : channel < c.channels) (h : accumulate c o y x channel = .ok acc) :
    acc = tapSum c input weights y x channel := by
  by_cases hempty : c.inputDims.rows * c.inputDims.cols = 0
  · have hzero : tapSum c input weights y x channel = 0 := by
      simp only [tapSum, tapValue_of_empty hempty, sum_const_zero]
    rw [hzero]
    exact (accumulate_of_empty hempty).of_eq_ok h
  · have hplane : c.inputDims.rows * c.inputDims.cols ≤ maxBuffer :=
      Nat.le_trans (Nat.le_mul_of_pos_right _ (by rw [hin]; omega)) hsize
    obtain ⟨hsomeRow, hsomeCol⟩ := Nat.mul_ne_zero_iff.mp hempty
    have hrows : c.inputDims.rows ≤ maxBuffer :=
      Nat.le_trans (Nat.le_mul_of_pos_right _ (Nat.pos_of_ne_zero hsomeCol)) hplane
    have hcols : c.inputDims.cols ≤ maxBuffer :=
      Nat.le_trans (Nat.le_mul_of_pos_left _ (Nat.pos_of_ne_zero hsomeRow)) hplane
    unfold maxBuffer at hrows hcols
    have hends : Ends (fun _ => True) (· = tapSum c input weights y x channel)
        (accumulate c o y x channel) := by
      refine accumulate_ends hin hreads hchannel (.inr trivial) (fun kh _ => ?_) fun kw _ => ?_
      · rw [rowShift_eq_signed]
        exact position_ends (by omega) (by unfold wordLimit; omega) (.inr ⟨trivial, trivial⟩)
          (.inr trivial)
      · rw [colShift_eq_signed]
        exact position_ends (by omega) (by unfold wordLimit; omega) (.inr ⟨trivial, trivial⟩)
          (.inr trivial)
    exact hends.of_eq_ok h

end Values

/-- The values of a share: for each of its positions the place in the output tile and the byte. -/
def outcomes (c : Call) (img : Image) (share : Share) : List (Nat × UInt8) :=
  (positions c share).map fun (y, x, channel) =>
    ((y * c.outputDims.cols + x) * c.outputDims.channels + channel, outcomeIn c img y x channel)

/-- A lone unit has a result for every position of the output tile. -/
theorem mem_positions_all : (y, x, channel) ∈ positions c ⟨0, c.channels⟩ ↔
    y < c.outputDims.rows ∧ x < c.outputDims.cols ∧ channel < c.channels := by
  simp [mem_positions]

/-- One unit on its own completes a call whose tiles have its channels and that writes nothing it reads. -/
structure RunsAlone (c : Call) (m single : Memory) : Prop where
  inputChannels : c.inputDims.channels = c.channels
  outputChannels : c.outputDims.channels = c.channels
  apart : ∀ e, c.MayRead e → ¬ c.MayWrite e
  /-- The unit finishes: none of its arithmetic overflows. -/
  run : kernel ⟨0, 1⟩ c m = .ok () single
  /-- The paddings that are applied stay the same numbers when they are read as displacements. -/
  top : rowPad c < 0x8000000000000000
  left : colPad c < 0x8000000000000000

namespace RunsAlone

variable (h : RunsAlone c m single)
include h

/-- A result is the value at its position with its place. -/
theorem result_eq_outcome (hread : readOperands c (m.bank .scratchpad) = .ok o)
    (hchannel : channel < c.channels) {v : Nat × UInt8} (hresult : result c o y x channel = .ok v) :
    v = ((y * c.outputDims.cols + x) * c.outputDims.channels + channel,
      outcomeIn c m.image y x channel) := by
  obtain ⟨hsize, -, hreads⟩ := readOperands_inv hread
  obtain ⟨acc, k, l, hacc, hkappa, hlambda, hvalue, hplace⟩ := result_inv hresult
  obtain rfl := accumulate_inv h.top h.left h.inputChannels hsize hreads hchannel hacc
  rw [element_eq (hreads.kappa _ hchannel)] at hkappa
  rw [element_eq (hreads.lambda _ hchannel)] at hlambda
  cases hkappa
  cases hlambda
  exact Prod.ext hplace (requantize_eq_ok_iff.mp hvalue).2.symm

/-- If there are channels, the lone unit has read the operands and computed the values of every share. -/
theorem computes : c.channels = 0 ∨ ∃ o, readOperands c (m.bank .scratchpad) = .ok o ∧
    c.outputDims.rows * c.outputDims.cols < wordLimit ∧ c.outputDims.size * resultBytes ≤ maxBuffer ∧
    ∀ share, share.stop ≤ c.channels → results c o share = .ok (outcomes c m.image share) := by
  obtain ⟨all, hall, hdone⟩ := kernel_work h.run
  obtain rfl := Member.share_alone hall
  rcases hdone with ⟨hempty, -⟩ | ⟨-, hwork⟩
  · simp only [Share.isEmpty, decide_eq_true_eq] at hempty
    exact .inl (Nat.le_zero.mp hempty)
  · obtain ⟨o, values, hread, hplane, hbuffer, hvalues, -⟩ := work_inv hwork
    refine .inr ⟨o, hread, hplane, ?_, fun share hstop => ?_⟩
    · rw [TileDims.size, h.outputChannels]
      exact hbuffer
    · -- a position of the share is one of the lone unit
      have hends : Ends (fun _ => False) (· = outcomes c m.image share) (results c o share) := by
        refine mapM_ends_map fun p hmem => ?_
        obtain ⟨y, x, channel⟩ := p
        obtain ⟨hy, hx, hlo, hhi⟩ := mem_positions.mp hmem
        have hchannel : channel < c.channels := by omega
        obtain ⟨v, hv⟩ := result_of_results hvalues
          (mem_positions_all.mpr ⟨hy, hx, hchannel⟩)
        exact .of_ok hv (h.result_eq_outcome hread hchannel hv)
      obtain ⟨_, hresults, rfl⟩ := hends.ok_of_never fun _ => id
      exact hresults

/-- A unit stores the values of its share, from every memory with the same operands. -/
theorem kernel_eq_store {u : Member} {share : Share} (hshare : u.share c.channels = .ok share)
    (hsame : c.SameOperands m.image n.image) :
    kernel u c n = store c.output (outcomes c m.image share) n := by
  have hstop := Member.share_stop_le hshare
  cases hempty : share.isEmpty with
  | true =>
    simp only [Share.isEmpty, decide_eq_true_eq] at hempty
    have hnone : outcomes c m.image share = [] := by
      rw [outcomes, positions_eq_product, Nat.sub_eq_zero_of_le hempty]
      simp
    rw [kernel_of_empty hshare (decide_eq_true hempty), hnone]
    rfl
  | false =>
    simp only [Share.isEmpty, decide_eq_false_iff_not] at hempty
    rcases h.computes with hzero | ⟨o, hread, hplane, hbuffer, hresults⟩
    · omega
    · have hread' : readOperands c (n.bank .scratchpad) = .ok o :=
        readOperands_congr (fun _ hranges _ hr _ hi => sameOperands_bytes hsame hranges hr hi) hread
      have hcount : c.outputDims.rows * c.outputDims.cols * (share.stop - share.start) ≤
          c.outputDims.size := Nat.mul_le_mul_left _ (by rw [h.outputChannels]; omega)
      rw [kernel_of_some hshare (decide_eq_false hempty), work_eq hread' hplane
        (Nat.le_trans (Nat.mul_le_mul_right _ hcount) hbuffer), hresults share hstop,
        Stateful.bind_of_ok (Stateful.lift_ok _ _)]

/-- The lone unit has stored the values of all channels. -/
theorem stored : store c.output (outcomes c m.image ⟨0, c.channels⟩) m = .ok () single := by
  obtain ⟨share, hshare, -⟩ := kernel_work h.run
  obtain rfl := Member.share_alone hshare
  rw [← h.kernel_eq_store hshare fun _ _ => rfl]
  exact h.run

theorem mayWrite_iff {e : Endpoint} : c.MayWrite e ↔ c.Writes e := by
  refine ⟨fun he => ?_, fun he => ?_⟩
  · obtain ⟨_, hwrite, -⟩ := id he
    exact (Call.mayWrite_iff hwrite).mp he
  · rcases h.computes with hzero | ⟨-, -, hplane, hbuffer, -⟩
    · obtain ⟨-, hlo, hhi⟩ := he
      rw [TileDims.size, h.outputChannels, hzero] at hhi
      omega
    · have hbytes : c.outputDims.bytes = .ok c.outputDims.size := by
        refine TileDims.bytes_eq_ok_iff.mpr ⟨hplane, ?_, rfl⟩
        unfold resultBytes maxBuffer wordLimit at *
        omega
      have hwrite : c.writeRange = .ok (c.output, c.outputDims.size) := by
        rw [Call.writeRange, hbytes]
        rfl
      exact (Call.mayWrite_iff hwrite).mpr he

end RunsAlone

/-! ## All values once -/

theorem nodup_positions (c : Call) (share : Share) : (positions c share).Nodup := by
  rw [positions_eq_product]
  exact List.nodup_range.product (List.nodup_range.product (List.nodup_range' ..))

theorem length_outcomes (c : Call) (img : Image) :
    (outcomes c img ⟨0, c.channels⟩).length = c.outputDims.rows * c.outputDims.cols * c.channels := by
  rw [outcomes, List.length_map, positions_eq_product, List.length_product, List.length_product]
  simp [Nat.mul_assoc]

/-- The values of a lone unit take every place of the output tile once. -/
theorem places_perm (hout : c.outputDims.channels = c.channels) (img : Image) :
    ((outcomes c img ⟨0, c.channels⟩).map Prod.fst).Perm (List.range c.outputDims.size) := by
  have hnodup : ((outcomes c img ⟨0, c.channels⟩).map Prod.fst).Nodup := by
    rw [outcomes, List.map_map]
    refine List.Nodup.map_on ?_ (nodup_positions c _)
    rintro ⟨y, x, channel⟩ hmem ⟨y', x', channel'⟩ hmem' hplace
    obtain ⟨-, hx, hchannel⟩ := mem_positions_all.mp hmem
    obtain ⟨-, hx', hchannel'⟩ := mem_positions_all.mp hmem'
    rw [← hout] at hchannel hchannel'
    obtain ⟨rfl, rfl, rfl⟩ := index_inj hx hchannel hx' hchannel' hplace
    rfl
  refine (List.subperm_of_subset hnodup fun place hplace => ?_).perm_of_length_le ?_
  · rw [outcomes, List.map_map] at hplace
    obtain ⟨⟨y, x, channel⟩, hmem, rfl⟩ := List.mem_map.mp hplace
    exact List.mem_range.mpr (offset_lt hout (Nat.le_refl _) hmem)
  · rw [List.length_range, List.length_map, length_outcomes, TileDims.size, hout]

theorem outcomes_team_perm {units : Nat} {share : Member → Share} (img : Image)
    (hstop : ∀ u ∈ Member.team units, (share u).stop ≤ c.channels)
    (hown : ∀ u ∈ Member.team units, ∀ k < c.channels,
      ((share u).start ≤ k ∧ k < (share u).stop) ↔ Member.ownerOf units c.channels k = u) :
    ((Member.team units).flatMap fun u => outcomes c img (share u)).Perm
      (outcomes c img ⟨0, c.channels⟩) := by
  have hnodup : ((Member.team units).flatMap fun u => positions c (share u)).Nodup := by
    refine List.nodup_flatMap.mpr ⟨fun u _ => nodup_positions c _, ?_⟩
    refine (Member.nodup_team units).pairwise_of_forall_ne fun u hu v hv hne => ?_
    rintro ⟨y, x, channel⟩ hmine hother
    obtain ⟨-, -, hlo, hhi⟩ := mem_positions.mp hmine
    obtain ⟨-, -, hlo', hhi'⟩ := mem_positions.mp hother
    have hu' := hstop u hu
    exact hne (((hown u hu channel (by omega)).mp ⟨hlo, by omega⟩).symm.trans
      ((hown v hv channel (by omega)).mp ⟨hlo', by omega⟩))
  have hperm : ((Member.team units).flatMap fun u => positions c (share u)).Perm
      (positions c ⟨0, c.channels⟩) := by
    refine (List.perm_ext_iff_of_nodup hnodup (nodup_positions c _)).mpr ?_
    rintro ⟨y, x, channel⟩
    rw [List.mem_flatMap, mem_positions_all]
    constructor
    · rintro ⟨u, hu, hmem⟩
      obtain ⟨hy, hx, hlo, hhi⟩ := mem_positions.mp hmem
      have := hstop u hu
      exact ⟨hy, hx, by omega⟩
    · rintro ⟨hy, hx, hchannel⟩
      have hmember := Member.ownerOf_mem units (.inl hchannel)
      obtain ⟨hlo, hhi⟩ := (hown _ hmember channel hchannel).mpr rfl
      exact ⟨_, hmember, mem_positions.mpr ⟨hy, hx, hlo, by omega⟩⟩
  simp only [outcomes, ← List.map_flatMap]
  exact hperm.map _

/-! ## Any order -/

/-- Units that do not disturb each other's operands store their values one after the other. -/
theorem forM_kernel {img : Image} {order : List Member} {written : Member → List (Nat × UInt8)}
    (hruns : ∀ u ∈ order, ∀ n : Memory, c.SameOperands img n.image →
      kernel u c n = store c.output (written u) n)
    (hroom : ∀ v ∈ order.flatMap written, c.output + v.1 + 1 < wordLimit)
    (hapart : ∀ v ∈ order.flatMap written, ¬ c.MayRead ⟨.scratchpad, c.output + v.1⟩)
    (hsame : c.SameOperands img n.image) :
    order.forM (kernel · c) n = store c.output (order.flatMap written) n := by
  induction order generalizing n with
  | nil => rfl
  | cons u order ih =>
    rw [List.flatMap_cons] at hroom hapart ⊢
    obtain ⟨mid, hstore⟩ := store_exists (fun v hv => hroom v (List.mem_append_left _ hv)) n
    have hmid : c.SameOperands img mid.image := by
      intro e he
      rw [hsame e he, store_missed hstore]
      rintro v hv rfl
      exact hapart v (List.mem_append_left _ hv) he
    have hfirst : kernel u c n = .ok () mid := by
      rw [hruns u List.mem_cons_self n hsame, hstore]
    rw [store_append, Stateful.bind_of_ok hstore]
    show (kernel u c >>= fun _ => order.forM (kernel · c)) n = _
    rw [Stateful.bind_of_ok hfirst]
    exact ih (fun v hv => hruns v (List.mem_cons_of_mem u hv))
      (fun v hv => hroom v (List.mem_append_right _ hv))
      (fun v hv => hapart v (List.mem_append_right _ hv)) hmid

/-- What each unit of a team writes, as places in the output tile with their bytes. -/
structure Divides (c : Call) (team : List Member) (img : Image)
    (written : Member → List (Nat × UInt8)) : Prop where
  /-- From every memory with the operands a unit stores its bytes, and does nothing else. -/
  runs : ∀ u ∈ team, ∀ n : Memory, c.SameOperands img n.image →
    kernel u c n = store c.output (written u) n
  /-- Every byte of the output tile is written once, by one unit. -/
  once : ((team.flatMap written).map Prod.fst).Perm (List.range c.outputDims.size)
  /-- The byte of a position is the value of the convolution there. -/
  value : ∀ y < c.outputDims.rows, ∀ x < c.outputDims.cols, ∀ channel < c.channels,
    ∃ u ∈ team, ((y * c.outputDims.cols + x) * c.outputDims.channels + channel,
      outcomeIn c img y x channel) ∈ written u

namespace RunsAlone

variable (h : RunsAlone c m single)
include h

theorem channels_lt : c.channels < 0x8000000000000000 := by
  rcases h.computes with hzero | ⟨o, hread, -⟩
  · omega
  · obtain ⟨-, hwords, -⟩ := readOperands_inv hread
    unfold maxBuffer at hwords
    omega

/-- A team divides the values of a lone unit. -/
theorem divides {units : Nat} (hunits : units < wordLimit) :
    ∃ written, Divides c (Member.team units) m.image written ∧
      ((Member.team units).flatMap written).Perm (outcomes c m.image ⟨0, c.channels⟩) := by
  choose! share hshare hown using fun u (hu : u ∈ Member.team units) =>
    Member.share_exists hu hunits h.channels_lt
  have hperm := outcomes_team_perm m.image (fun u hu => Member.share_stop_le (hshare u hu)) hown
  refine ⟨fun u => outcomes c m.image (share u), ⟨fun u hu n hsame => ?_, ?_, ?_⟩, hperm⟩
  · exact h.kernel_eq_store (hshare u hu) hsame
  · exact (hperm.map _).trans (places_perm h.outputChannels m.image)
  · intro y hy x hx channel hchannel
    have hmember := Member.ownerOf_mem units (.inl hchannel)
    obtain ⟨hlo, hhi⟩ := (hown _ hmember channel hchannel).mpr rfl
    have hmem : (y, x, channel) ∈ positions c (share (Member.ownerOf units c.channels channel)) :=
      mem_positions.mpr ⟨hy, hx, hlo, by omega⟩
    exact ⟨_, hmember, List.mem_map.mpr ⟨_, hmem, rfl⟩⟩

/-- Memories with the operands, in which a team runs in some order and a unit alone, end alike. -/
theorem team_exists {units : Nat} (hunits : units < wordLimit) {order : List Member}
    (horder : order.Perm (Member.team units)) (hsame : c.SameOperands m.image n.image) :
    ∃ n', order.forM (kernel · c) n = .ok () n' ∧ ∀ e, (c.MayWrite e → n'.image e = single.image e) ∧
      (¬ c.MayWrite e → n'.image e = n.image e) := by
  obtain ⟨written, hdivides, hteam⟩ := h.divides hunits
  have hperm := (horder.flatMap_right written).trans hteam
  have hplaces := places_perm h.outputChannels m.image
  have honce := hplaces.nodup_iff.mpr List.nodup_range
  have hinside : ∀ v ∈ order.flatMap written, c.MayWrite ⟨.scratchpad, c.output + v.1⟩ := by
    intro v hv
    have hplace := hplaces.mem_iff.mp (List.mem_map_of_mem (hperm.mem_iff.mp hv))
    exact h.mayWrite_iff.mpr
      ⟨rfl, Nat.le_add_right _ _, Nat.add_lt_add_left (List.mem_range.mp hplace) _⟩
  have hroom : ∀ v ∈ order.flatMap written, c.output + v.1 + 1 < wordLimit :=
    fun v hv => store_room h.stored v (hperm.mem_iff.mp hv)
  have hruns := forM_kernel (fun u hu => hdivides.runs u (horder.mem_iff.mp hu)) hroom
    (fun v hv hread => h.apart _ hread (hinside v hv)) hsame
  obtain ⟨n', hstore⟩ := store_exists hroom n
  refine ⟨n', hruns.trans hstore, fun e => ⟨fun he => ?_, fun he => ?_⟩⟩
  · obtain ⟨htier, hlo, hhi⟩ := h.mayWrite_iff.mp he
    have hplace := hplaces.mem_iff.mpr (List.mem_range.mpr (Nat.sub_lt_left_of_lt_add hlo hhi))
    obtain ⟨v, hv, hfst⟩ := List.mem_map.mp hplace
    have hat : e = ⟨.scratchpad, c.output + v.1⟩ := by
      rw [hfst, Nat.add_sub_cancel' hlo, ← htier]
    rw [hat, store_hit h.stored honce hv,
      store_hit hstore ((hperm.map _).nodup_iff.mpr honce) (hperm.mem_iff.mpr hv)]
  · exact store_missed hstore fun v hv hhit => he (hhit ▸ hinside v hv)

theorem kept {e : Endpoint} (he : ¬ c.MayWrite e) : single.image e = m.image e :=
  kernel_confined.frame _ _ _ _ h.outputChannels h.run e fun hwrites => he (h.mayWrite_iff.mpr hwrites)

end RunsAlone

/-- **A team leaves what one unit leaves.** Let a unit on its own complete a call that writes nothing it
reads. Then a team of any size completes it, in whatever order the units run, and leaves the same
bytes; every byte of the output tile is written by one unit, with the value of the convolution at
its position, and no other byte changes. Memories with the same operands end with the same bytes
in the output tile. -/
theorem team_leaves_what_one_unit_leaves (h : RunsAlone c m single) {units : Nat}
    (hunits : units < wordLimit) :
    (∀ order : List Member, order.Perm (Member.team units) →
      ∃ m', order.forM (kernel · c) m = .ok () m' ∧ m'.image = single.image) ∧
    (∃ written, Divides c (Member.team units) m.image written) ∧
    (∀ e, ¬ c.MayWrite e → single.image e = m.image e) ∧
    ∀ n : Memory, c.SameOperands m.image n.image →
      ∀ order : List Member, order.Perm (Member.team units) →
        ∃ n', order.forM (kernel · c) n = .ok () n' ∧
          ∀ e, (c.MayWrite e → n'.image e = single.image e) ∧
            (¬ c.MayWrite e → n'.image e = n.image e) := by
  refine ⟨fun order horder => ?_, ?_, fun e he => h.kept he, fun n hsame order horder => ?_⟩
  · obtain ⟨m', hrun, hends⟩ := h.team_exists hunits horder fun _ _ => rfl
    refine ⟨m', hrun, funext fun e => ?_⟩
    by_cases he : c.MayWrite e
    · exact (hends e).1 he
    · rw [(hends e).2 he, h.kept he]
  · obtain ⟨written, hdivides, -⟩ := h.divides hunits
    exact ⟨written, hdivides⟩
  · exact h.team_exists hunits horder hsame

/-- One pixel of two channels. -/
def pixelCall : Call where
  input := 0x00
  inputDims := ⟨1, 1, 2⟩
  weights := 0x10
  channels := 2
  kernel := 1
  stride := 1
  boundary := ⟨false, false, false, false⟩
  padding := ⟨0, 0, 0, 0⟩
  workspace := 0x50
  workspaceBytes := 0
  kappa := 0x20
  lambda := 0x30
  requant := ⟨0, 24⟩
  output := 0x40
  outputDims := ⟨1, 1, 2⟩

/-- A scratchpad whose operands are rows of ones. -/
def onesMemory : Memory :=
  (Memory.empty 0x100).withBank .scratchpad { (Memory.empty 0x100).bank .scratchpad with
    pages := Pages.empty.write 0 (List.replicate 0x40 1) }

/-- Three units run backwards, one of them without a channel. -/
theorem team_leaves_what_one_unit_leaves_backwards : ∃ single,
    RunsAlone pixelCall onesMemory single ∧
    (∃ m', (Member.team 3).reverse.forM (kernel · pixelCall) onesMemory = .ok () m' ∧
      m'.image = single.image) ∧
    ∃ written, Divides pixelCall (Member.team 3) onesMemory.image written := by
  have hbounded : Bounded pixelCall := by constructor <;> decide
  have hmoderate : Moderate pixelCall := ⟨hbounded, by decide⟩
  have hplaced : Placed pixelCall := by constructor <;> exact .inr (by decide)
  have hshare : (⟨0, 1⟩ : Member).share pixelCall.channels = .ok ⟨0, 2⟩ := rfl
  obtain ⟨_, single, hrun, -⟩ := (kernel_ends hbounded hplaced hshare onesMemory).ok_of_never (by
      rintro f ⟨y, x, channel, hmem, hvalue⟩
      rw [valueIn_eq hmoderate _ _ _ (mem_positions_all.mp hmem).2.2, if_neg (by decide)] at hvalue
      cases hvalue)
  have hreads : pixelCall.readRanges = .ok [(0x00, 2), (0x10, 2), (0x20, 8), (0x30, 8)] := rfl
  have hwrites : pixelCall.writeRange = .ok (0x40, 2) := rfl
  have halone : RunsAlone pixelCall onesMemory single := by
    refine ⟨rfl, rfl, ?_, hrun, by decide, by decide⟩
    rintro e ⟨ranges, hranges, r, hr, -, -, hbefore⟩ ⟨w, hw, -, hfrom, -⟩
    cases hreads.symm.trans hranges
    cases hwrites.symm.trans hw
    simp only [List.mem_cons, List.not_mem_nil, or_false] at hr
    rcases hr with rfl | rfl | rfl | rfl <;> simp only at hbefore hfrom <;> omega
  obtain ⟨hany, hdivides, -⟩ := team_leaves_what_one_unit_leaves halone (show 3 < wordLimit by decide)
  exact ⟨single, halone, hany _ (List.reverse_perm _), hdivides⟩

end TileStream.Depthwise
