import Mathlib.Data.List.ProdSigma
import TileStream.Kernel.Depthwise
import TileStream.Proofs.Memory.Image
import TileStream.Proofs.Team.Division

/-! # Kernels that write only their output

A confined kernel changes no byte outside the range that its call names, as long
as the call has a multiplier and a bias for every output channel. The depthwise
kernel is confined. What it has done when it finishes is taken apart here once:
its reads (`readOperands_eq_ok_iff`), its results (`result_inv`), the stores
(`store_hit`, `store_missed`) and the whole of a unit's work (`work_inv`). -/
namespace TileStream

open Unsigned

def TileDims.size (d : TileDims) : Nat := d.rows * d.cols * d.channels

theorem TileDims.bytes_eq_ok_iff {d : TileDims} {n : Nat} :
    d.bytes = .ok n ↔ d.rows * d.cols < wordLimit ∧ d.size < wordLimit ∧ d.size = n := by
  rw [bytes, Checked.bind_eq_ok]
  constructor
  · rintro ⟨plane, hplane, hall⟩
    obtain ⟨hlt, rfl⟩ := mul_eq_ok_iff.mp hplane
    exact ⟨hlt, mul_eq_ok_iff.mp hall⟩
  · rintro ⟨hplane, hall⟩
    exact ⟨_, mul_of_lt hplane, mul_eq_ok_iff.mpr hall⟩

theorem TileDims.bytes_of_le {d : TileDims} {n : Nat} (hsize : d.size ≤ n)
    (hn : n < 0x10000000000000000) (hpos : 0 < d.channels) : d.bytes = .ok d.size := by
  have hplane : d.rows * d.cols ≤ d.size := Nat.le_mul_of_pos_right _ hpos
  exact bytes_eq_ok_iff.mpr ⟨by unfold wordLimit; omega, by unfold wordLimit; omega, rfl⟩

/-- An endpoint lies in the range that a call writes. -/
def Call.Writes (c : Call) (e : Endpoint) : Prop :=
  e.tier = .scratchpad ∧ c.output ≤ e.addr ∧ e.addr < c.output + c.outputDims.size

/-- A kernel writes only the range that its call names. -/
structure Kernel.Confined (kernel : Kernel) : Prop where
  frame : ∀ u call m m', call.outputDims.channels = call.channels → kernel u call m = .ok () m' →
    ∀ e, ¬ call.Writes e → m'.image e = m.image e

namespace Memory

theorem writeByte_inv {addr : Nat} {v : UInt8} {m m' : Memory}
    (h : onBank .scratchpad (Bank.writeByte addr v) m = .ok () m') :
    m'.image = Function.update m.image ⟨.scratchpad, addr⟩ v ∧ m'.readCount = m.readCount := by
  obtain ⟨himage, hreads⟩ := onBank_write_inv h
  refine ⟨?_, hreads⟩
  rw [himage]
  rfl

end Memory

namespace Depthwise

/-- Write the results of a unit. -/
def store (output : Nat) (values : List (Nat × UInt8)) : Stateful Memory Unit :=
  values.forM fun (offset, value) => do
    let addr ← add output offset
    Memory.onBank .scratchpad (Bank.writeByte addr value)

theorem store_cons {output : Nat} {v : Nat × UInt8} {values : List (Nat × UInt8)} {m m' : Memory} :
    store output (v :: values) m = .ok () m' ↔ output + v.1 < wordLimit ∧
      ∃ mid, Memory.onBank .scratchpad (Bank.writeByte (output + v.1) v.2) m = .ok () mid ∧
        store output values mid = .ok () m' := by
  show ((do
    let addr ← add output v.1
    Memory.onBank .scratchpad (Bank.writeByte addr v.2)) >>= fun _ => store output values) m = _ ↔ _
  rw [Stateful.bind_eq_ok]
  constructor
  · rintro ⟨_, mid, hwrite, hrest⟩
    obtain ⟨addr, haddr, hwrite⟩ := Stateful.lift_bind_eq_ok.mp hwrite
    obtain ⟨hlt, rfl⟩ := add_eq_ok_iff.mp haddr
    exact ⟨hlt, mid, hwrite, hrest⟩
  · rintro ⟨hlt, mid, hwrite, hrest⟩
    exact ⟨(), mid, Stateful.lift_bind_eq_ok.mpr ⟨_, add_of_lt hlt, hwrite⟩, hrest⟩

/-- What holds of every result for a byte holds of the byte, if it held before or there is one. -/
theorem store_settles {output : Nat} {values : List (Nat × UInt8)} {m m' : Memory}
    (h : store output values m = .ok () m') {e : Endpoint} {R : UInt8 → Prop}
    (hsome : R (m.image e) ∨ ∃ v ∈ values, ⟨.scratchpad, output + v.1⟩ = e)
    (hall : ∀ v ∈ values, ⟨.scratchpad, output + v.1⟩ = e → R v.2) : R (m'.image e) := by
  induction values generalizing m with
  | nil =>
    cases h
    rcases hsome with hinit | ⟨v, hv, -⟩
    · exact hinit
    · cases hv
  | cons v values ih =>
    obtain ⟨-, mid, hwrite, hrest⟩ := store_cons.mp h
    obtain ⟨himage, -⟩ := Memory.writeByte_inv hwrite
    refine ih hrest ?_ fun v' hv' => hall v' (List.mem_cons_of_mem v hv')
    rw [himage]
    by_cases heq : (⟨.scratchpad, output + v.1⟩ : Endpoint) = e
    · refine .inl ?_
      rw [← heq, Function.update_self]
      exact hall v List.mem_cons_self heq
    · rw [Function.update_of_ne (Ne.symm heq)]
      refine hsome.imp_right ?_
      rintro ⟨v', hv', hhit⟩
      rcases List.mem_cons.mp hv' with rfl | hin
      · exact absurd hhit heq
      · exact ⟨v', hin, hhit⟩

theorem store_missed {output : Nat} {values : List (Nat × UInt8)} {m m' : Memory}
    (h : store output values m = .ok () m') {e : Endpoint}
    (hmiss : ∀ v ∈ values, ⟨.scratchpad, output + v.1⟩ ≠ e) : m'.image e = m.image e :=
  store_settles (R := (· = m.image e)) h (.inl rfl) fun v hv hhit => absurd hhit (hmiss v hv)

/-- Where no place is taken twice, every value that is stored is there in the end. -/
theorem store_hit {output : Nat} {values : List (Nat × UInt8)} {m m' : Memory}
    (h : store output values m = .ok () m') (honce : (values.map Prod.fst).Nodup)
    {v : Nat × UInt8} (hv : v ∈ values) : m'.image ⟨.scratchpad, output + v.1⟩ = v.2 := by
  refine store_settles (R := (· = v.2)) h (.inr ⟨v, hv, rfl⟩) fun w hw hhit => ?_
  have hplace : w.1 = v.1 := Nat.add_left_cancel (congrArg Endpoint.addr hhit)
  rw [List.inj_on_of_nodup_map honce hw hv hplace]

theorem readCount_store {output : Nat} {values : List (Nat × UInt8)} {m m' : Memory}
    (h : store output values m = .ok () m') : m'.readCount = m.readCount := by
  induction values generalizing m with
  | nil =>
    cases h
    rfl
  | cons v values ih =>
    obtain ⟨-, mid, hwrite, hrest⟩ := store_cons.mp h
    rw [ih hrest, (Memory.writeByte_inv hwrite).2]

theorem store_exists {output : Nat} {values : List (Nat × UInt8)}
    (h : ∀ v ∈ values, output + v.1 + 1 < wordLimit) (m : Memory) :
    ∃ m', store output values m = .ok () m' := by
  induction values generalizing m with
  | nil => exact ⟨m, rfl⟩
  | cons v values ih =>
    have hv := h v List.mem_cons_self
    have hfits : AccessFits (output + v.1) [v.2].length := .inr hv
    obtain ⟨mid, hwrite⟩ := Memory.onBank_write_exists hfits m .scratchpad
    obtain ⟨m', hrest⟩ := ih (fun v' hv' => h v' (List.mem_cons_of_mem v hv')) mid
    exact ⟨m', store_cons.mpr ⟨Nat.lt_of_succ_lt hv, mid, hwrite, hrest⟩⟩

/-- Two lists of results are stored one after the other. -/
theorem store_append (output : Nat) (values more : List (Nat × UInt8)) :
    store output (values ++ more) = (do
      store output values
      store output more) :=
  List.forM_append

/-- Results that have been stored end below the last address. -/
theorem store_room {output : Nat} {values : List (Nat × UInt8)} {m m' : Memory}
    (h : store output values m = .ok () m') : ∀ v ∈ values, output + v.1 + 1 < wordLimit := by
  induction values generalizing m with
  | nil => exact nofun
  | cons v values ih =>
    obtain ⟨-, mid, hwrite, hrest⟩ := store_cons.mp h
    rintro w (_ | ⟨_, hw⟩)
    · exact (Memory.onBank_write_fits hwrite).resolve_left Nat.one_ne_zero
    · exact ih hrest w hw

/-! ## The kernel -/

/-- A kernel has read its operands exactly if the sizes are words and the four reads have finished. -/
theorem readOperands_eq_ok_iff {c : Call} {b : Bank} {o : Operands} : readOperands c b = .ok o ↔
    ∃ input weights kappa lambda, c.inputDims.bytes = .ok c.inputDims.size ∧
      c.channels * c.kernel < wordLimit ∧ c.channels * c.kernel * c.kernel < wordLimit ∧
      b.read c.input c.inputDims.size = .ok input ∧
      b.read c.weights (c.channels * c.kernel * c.kernel) = .ok weights ∧
      b.readInt32s c.kappa c.channels = .ok kappa ∧ b.readInt32s c.lambda c.channels = .ok lambda ∧
      o = ⟨input, weights, kappa.toArray, lambda.toArray⟩ := by
  constructor
  · intro h
    obtain ⟨bytes, hbytes, hrest⟩ := Checked.bind_eq_ok.mp h
    obtain ⟨-, -, rfl⟩ := TileDims.bytes_eq_ok_iff.mp hbytes
    obtain ⟨input, hinput, hrest⟩ := Checked.bind_eq_ok.mp hrest
    obtain ⟨row, hmul, hrest⟩ := Checked.bind_eq_ok.mp hrest
    obtain ⟨hrow, rfl⟩ := mul_eq_ok_iff.mp hmul
    obtain ⟨all, hmul, hrest⟩ := Checked.bind_eq_ok.mp hrest
    obtain ⟨hall, rfl⟩ := mul_eq_ok_iff.mp hmul
    obtain ⟨weights, hweights, hrest⟩ := Checked.bind_eq_ok.mp hrest
    obtain ⟨kappa, hkappa, hrest⟩ := Checked.bind_eq_ok.mp hrest
    obtain ⟨lambda, hlambda, hrest⟩ := Checked.bind_eq_ok.mp hrest
    exact ⟨input, weights, kappa, lambda, hbytes, hrow, hall, hinput, hweights, hkappa, hlambda,
      (Checked.pure_eq_ok.mp hrest).symm⟩
  · rintro ⟨input, weights, kappa, lambda, hbytes, hrow, hall, hinput, hweights, hkappa, hlambda, rfl⟩
    rw [readOperands, hbytes, Checked.ok_bind, hinput, Checked.ok_bind, mul_of_lt hrow,
      Checked.ok_bind, mul_of_lt hall, Checked.ok_bind, hweights, Checked.ok_bind, hkappa,
      Checked.ok_bind, hlambda, Checked.ok_bind]
    rfl

/-- The part of the kernel after the share of the unit is known. -/
def work (c : Call) (share : Share) : Stateful Memory Unit := do
  let operands ← Memory.look .scratchpad (readOperands c)
  let count ← mul (← mul c.outputDims.rows c.outputDims.cols) (share.stop - share.start)
  checkBuffer (count * resultBytes)
  let values ← (results c operands share : Checked _)
  store c.output values

theorem kernel_eq (u : Member) (c : Call) :
    kernel u c = (do
      let share ← u.share c.channels
      if share.isEmpty then
        return
      work c share) := rfl

section Work

variable {c : Call} {share : Share} {o : Operands} {m m' : Memory}

/-- The work on operands that are known is to compute the results and to store them. -/
theorem work_eq (hread : readOperands c (m.bank .scratchpad) = .ok o)
    (hplane : c.outputDims.rows * c.outputDims.cols < wordLimit)
    (hbuffer : c.outputDims.rows * c.outputDims.cols * (share.stop - share.start) * resultBytes ≤
      maxBuffer) :
    work c share m = ((do
      let values ← (results c o share : Checked _)
      store c.output values) : Stateful Memory Unit) m := by
  have hlook : Memory.look .scratchpad (readOperands c) m = .ok o m := by
    rw [Memory.look, hread]
  have hcount : c.outputDims.rows * c.outputDims.cols * (share.stop - share.start) < wordLimit := by
    unfold resultBytes maxBuffer wordLimit at *
    omega
  have hcheck : checkBuffer (c.outputDims.rows * c.outputDims.cols * (share.stop - share.start) *
      resultBytes) = .ok () := if_neg (Nat.not_lt_of_le hbuffer)
  rw [work, Stateful.bind_of_ok hlook, mul_of_lt hplane, Stateful.bind_of_ok (Stateful.lift_ok _ _),
    mul_of_lt hcount, Stateful.bind_of_ok (Stateful.lift_ok _ _), hcheck,
    Stateful.bind_of_ok (Stateful.lift_ok _ _)]

theorem work_inv (h : work c share m = .ok () m') : ∃ operands values,
    readOperands c (m.bank .scratchpad) = .ok operands ∧
      c.outputDims.rows * c.outputDims.cols < wordLimit ∧
      c.outputDims.rows * c.outputDims.cols * (share.stop - share.start) * resultBytes ≤ maxBuffer ∧
      results c operands share = .ok values ∧ store c.output values m = .ok () m' := by
  obtain ⟨operands, mid, hlook, hrest⟩ := Stateful.bind_eq_ok.mp h
  obtain ⟨plane, hmul, hrest⟩ := Stateful.lift_bind_eq_ok.mp hrest
  obtain ⟨hplane, rfl⟩ := mul_eq_ok_iff.mp hmul
  obtain ⟨count, hcount, hrest⟩ := Stateful.lift_bind_eq_ok.mp hrest
  obtain ⟨-, rfl⟩ := mul_eq_ok_iff.mp hcount
  obtain ⟨_, hcheck, hrest⟩ := Stateful.lift_bind_eq_ok.mp hrest
  obtain ⟨values, hvalues, hstore⟩ := Stateful.lift_bind_eq_ok.mp hrest
  have hbuffer : c.outputDims.rows * c.outputDims.cols * (share.stop - share.start) * resultBytes ≤
      maxBuffer := by
    unfold checkBuffer at hcheck
    split at hcheck
    · cases hcheck
    · exact Nat.le_of_not_lt ‹_›
  obtain ⟨hread, rfl⟩ := Memory.look_inv hlook
  exact ⟨_, values, hread, hplane, hbuffer, hvalues, hstore⟩

end Work

/-- What a finished kernel has done: nothing, or the work of its share. -/
theorem kernel_work {u : Member} {c : Call} {m m' : Memory} (h : kernel u c m = .ok () m') :
    ∃ share, u.share c.channels = .ok share ∧ (share.isEmpty = true ∧ m' = m ∨
      share.isEmpty = false ∧ work c share m = .ok () m') := by
  rw [kernel_eq] at h
  obtain ⟨share, hshare, h⟩ := Stateful.lift_bind_eq_ok.mp h
  refine ⟨share, hshare, ?_⟩
  cases hempty : share.isEmpty with
  | true =>
    rw [hempty] at h
    cases h
    exact .inl ⟨rfl, rfl⟩
  | false =>
    rw [hempty] at h
    exact .inr ⟨rfl, h⟩

/-- What a finished kernel has done: nothing, or it has stored its results. -/
theorem kernel_inv {u : Member} {c : Call} {m m' : Memory} (h : kernel u c m = .ok () m') :
    ∃ share, u.share c.channels = .ok share ∧ (share.isEmpty = true ∧ m' = m ∨
      share.isEmpty = false ∧ ∃ operands values, readOperands c (m.bank .scratchpad) = .ok operands ∧
        results c operands share = .ok values ∧ store c.output values m = .ok () m') := by
  obtain ⟨share, hshare, hnone | ⟨hsome, hwork⟩⟩ := kernel_work h
  · exact ⟨share, hshare, .inl hnone⟩
  · obtain ⟨operands, values, hread, -, -, hvalues, hstore⟩ := work_inv hwork
    exact ⟨share, hshare, .inr ⟨hsome, operands, values, hread, hvalues, hstore⟩⟩

/-- A unit whose share is empty has nothing to do. -/
theorem kernel_of_empty {u : Member} {c : Call} {share : Share}
    (hshare : u.share c.channels = .ok share) (hempty : share.isEmpty = true) (m : Memory) :
    kernel u c m = .ok () m := by
  rw [kernel_eq, hshare, Stateful.bind_of_ok (Stateful.lift_ok _ _), hempty]
  rfl

theorem kernel_of_some {u : Member} {c : Call} {share : Share}
    (hshare : u.share c.channels = .ok share) (hsome : share.isEmpty = false) (m : Memory) :
    kernel u c m = work c share m := by
  rw [kernel_eq, hshare, Stateful.bind_of_ok (Stateful.lift_ok _ _), hsome]
  rfl

/-- The positions of a share are all triples of a row, a column and a channel of the share. -/
theorem positions_eq_product (c : Call) (share : Share) :
    positions c share = List.range c.outputDims.rows ×ˢ List.range c.outputDims.cols ×ˢ
      List.range' share.start (share.stop - share.start) := by
  simp [positions, List.product, SProd.sprod, List.map_flatMap, Function.comp_def]

theorem mem_positions {c : Call} {share : Share} {y x channel : Nat} :
    (y, x, channel) ∈ positions c share ↔ y < c.outputDims.rows ∧ x < c.outputDims.cols ∧
      share.start ≤ channel ∧ channel < share.start + (share.stop - share.start) := by
  rw [positions_eq_product, List.mem_product, List.mem_product, List.mem_range, List.mem_range,
    List.mem_range'_1]

/-- Every result belongs to a position of the share, and every position has its result. -/
theorem mem_results {c : Call} {o : Operands} {share : Share} {values : List (Nat × UInt8)}
    (h : results c o share = .ok values) {v : Nat × UInt8} :
    v ∈ values ↔ ∃ y x channel, (y, x, channel) ∈ positions c share ∧
      result c o y x channel = .ok v := by
  have hall := Checked.mapM_eq_ok_iff.mp h
  constructor
  · intro hv
    obtain ⟨n, hn, rfl⟩ := List.mem_iff_getElem.mp hv
    have hlength := hall.length_eq
    have hresult := hall.get (by omega) hn
    exact ⟨_, _, _, List.getElem_mem _, hresult⟩
  · rintro ⟨y, x, channel, hmem, hresult⟩
    obtain ⟨n, hn, hposition⟩ := List.mem_iff_getElem.mp hmem
    have hlength := hall.length_eq
    have hother := hall.get hn (by omega)
    simp only [List.get_eq_getElem, hposition, hresult, Except.ok.injEq] at hother
    rw [hother]
    exact List.getElem_mem _

theorem result_of_results {c : Call} {o : Operands} {share : Share} {values : List (Nat × UInt8)}
    (h : results c o share = .ok values) {y x channel : Nat}
    (hmem : (y, x, channel) ∈ positions c share) : ∃ v, result c o y x channel = .ok v := by
  have hall := Checked.mapM_eq_ok_iff.mp h
  obtain ⟨n, hn, hposition⟩ := List.mem_iff_getElem.mp hmem
  have hresult := hall.get hn (by rw [← hall.length_eq]; exact hn)
  simp only [List.get_eq_getElem, hposition] at hresult
  exact ⟨_, hresult⟩

/-- What a result was computed from, and its place in the packed output tile. -/
theorem result_inv {c : Call} {o : Operands} {y x channel : Nat} {v : Nat × UInt8}
    (h : result c o y x channel = .ok v) :
    ∃ acc k l, accumulate c o y x channel = .ok acc ∧ element o.kappa channel = .ok k ∧
      element o.lambda channel = .ok l ∧ requantize acc k l c.requant.outShift.toNat = .ok v.2 ∧
      v.1 = (y * c.outputDims.cols + x) * c.outputDims.channels + channel := by
  obtain ⟨acc, hacc, h⟩ := Checked.bind_eq_ok.mp h
  obtain ⟨_, hrow, h⟩ := Checked.bind_eq_ok.mp h
  obtain ⟨_, hpixel, h⟩ := Checked.bind_eq_ok.mp h
  obtain ⟨_, hscaled, h⟩ := Checked.bind_eq_ok.mp h
  obtain ⟨offset, hoffset, h⟩ := Checked.bind_eq_ok.mp h
  obtain ⟨k, hkappa, h⟩ := Checked.bind_eq_ok.mp h
  obtain ⟨l, hlambda, h⟩ := Checked.bind_eq_ok.mp h
  obtain ⟨value, hvalue, h⟩ := Checked.bind_eq_ok.mp h
  cases h
  rw [add_eq_ok_iff] at hpixel hoffset
  rw [mul_eq_ok_iff] at hrow hscaled
  refine ⟨acc, k, l, hacc, hkappa, hlambda, hvalue, ?_⟩
  rw [← hoffset.2, ← hscaled.2, ← hpixel.2, ← hrow.2]

theorem result_offset {c : Call} {o : Operands} {y x channel : Nat} {v : Nat × UInt8}
    (h : result c o y x channel = .ok v) :
    v.1 = (y * c.outputDims.cols + x) * c.outputDims.channels + channel := by
  obtain ⟨_, _, _, -, -, -, -, hplace⟩ := result_inv h
  exact hplace

theorem offset_lt {c : Call} (hc : c.outputDims.channels = c.channels) {share : Share}
    (hshare : share.stop ≤ c.channels) {y x channel : Nat}
    (h : (y, x, channel) ∈ positions c share) :
    (y * c.outputDims.cols + x) * c.outputDims.channels + channel < c.outputDims.size := by
  obtain ⟨hy, hx, hlo, hhi⟩ := mem_positions.mp h
  exact index_lt hy hx (by omega)

theorem kernel_confined : Kernel.Confined kernel where
  frame u c m m' hc h e he := by
    obtain ⟨share, hshare, ⟨-, rfl⟩ | ⟨-, operands, values, -, hvalues, hstore⟩⟩ := kernel_inv h
    · rfl
    · refine store_missed hstore fun v hv hhit => he ?_
      obtain ⟨y, x, channel, hmem, hresult⟩ := (mem_results hvalues).mp hv
      rw [← hhit, result_offset hresult]
      exact ⟨rfl, Nat.le_add_right _ _,
        Nat.add_lt_add_left (offset_lt hc (Member.share_stop_le hshare) hmem) _⟩

end Depthwise

end TileStream
