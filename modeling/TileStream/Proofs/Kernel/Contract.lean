import TileStream.Proofs.Kernel.Confined
import TileStream.Proofs.Memory.Words

/-! # The contract of a kernel

A call names the ranges of the scratchpad that a kernel reads and the one that it
writes. A kernel keeps the contract of a call if what a unit leaves depends on
nothing but the bytes that the call reads, if it lies in the range that the call
writes, and if no two units write the same byte. What each unit writes is then a
function of the operands (`written`, `effect`). The depthwise kernel keeps the
contract of every call whose output tile has its channels (`kernel_keeps`). -/
namespace TileStream

open Unsigned

/-- An endpoint lies in a range of the scratchpad. -/
def InPad (r : Nat × Nat) (e : Endpoint) : Prop :=
  e.tier = .scratchpad ∧ r.1 ≤ e.addr ∧ e.addr < r.1 + r.2

namespace Call

variable {c : Call} {img img' img'' : Image}

/-- A call names the endpoint among those that it reads. -/
def MayRead (c : Call) (e : Endpoint) : Prop :=
  ∃ ranges, c.readRanges = .ok ranges ∧ ∃ r ∈ ranges, InPad r e

/-- A call names the endpoint among those that it writes. -/
def MayWrite (c : Call) (e : Endpoint) : Prop := ∃ r, c.writeRange = .ok r ∧ InPad r e

/-- Two images hold the same operands of a call. -/
def SameOperands (c : Call) (img img' : Image) : Prop := ∀ e, c.MayRead e → img e = img' e

theorem mayWrite_iff {r : Nat × Nat} (hwrite : c.writeRange = .ok r) {e : Endpoint} :
    c.MayWrite e ↔ c.Writes e := by
  obtain ⟨bytes, hbytes, hr⟩ := Checked.bind_eq_ok.mp hwrite
  obtain ⟨-, -, rfl⟩ := TileDims.bytes_eq_ok_iff.mp hbytes
  cases hr
  refine ⟨?_, fun he => ⟨_, hwrite, he⟩⟩
  rintro ⟨r, hr, he⟩
  rw [hwrite] at hr
  cases hr
  exact he

theorem SameOperands.symm (h : c.SameOperands img img') : c.SameOperands img' img :=
  fun e he => (h e he).symm

theorem SameOperands.trans (h : c.SameOperands img img') (h' : c.SameOperands img' img'') :
    c.SameOperands img img'' := fun e he => (h e he).trans (h' e he)

end Call

namespace Kernel

/-- A kernel keeps the contract of a call, for the units of a team. -/
structure Keeps (kernel : Kernel) (team : List Member) (c : Call) : Prop where
  /-- On the same operands a unit leaves a byte alone, or it leaves the same byte there. -/
  depends : ∀ u ∈ team, ∀ m m' n n', c.SameOperands m.image n.image →
    kernel u c m = .ok () m' → kernel u c n = .ok () n' →
    ∀ e, (m'.image e = m.image e ∧ n'.image e = n.image e) ∨ m'.image e = n'.image e
  /-- No unit writes outside the range that the call writes. -/
  inside : ∀ u ∈ team, ∀ m m', kernel u c m = .ok () m' →
    ∀ e, ¬ c.MayWrite e → m'.image e = m.image e
  /-- On the same operands no two units write the same byte. -/
  apart : ∀ u ∈ team, ∀ v ∈ team, u ≠ v → ∀ m m' n n', c.SameOperands m.image n.image →
    kernel u c m = .ok () m' → kernel v c n = .ok () n' →
    ∀ e, m'.image e = m.image e ∨ n'.image e = n.image e

/-! ## What a unit writes -/

/-- On the operands that an image holds, a unit may change a byte, to `v`. -/
def Changes (kernel : Kernel) (u : Member) (c : Call) (img : Image) (e : Endpoint) (v : UInt8) :
    Prop :=
  ∃ m m', c.SameOperands m.image img ∧ kernel u c m = .ok () m' ∧ m'.image e ≠ m.image e ∧
    m'.image e = v

/-- What a unit writes to a byte on the operands that an image holds, if it writes there at all. -/
noncomputable def written (kernel : Kernel) (u : Member) (c : Call) (img : Image) (e : Endpoint) :
    Option UInt8 :=
  @dite _ (∃ v, kernel.Changes u c img e v) (Classical.propDecidable _) (some ·.choose) fun _ => none

variable {kernel : Kernel} {team : List Member} {u v : Member} {c : Call} {img : Image}
  {e : Endpoint} {m m' : Memory}

theorem changes_of_written {b : UInt8} (h : kernel.written u c img e = some b) :
    kernel.Changes u c img e b := by
  unfold written at h
  split at h
  · rename_i hsome
    cases h
    exact hsome.choose_spec
  · cases h

theorem not_changes_of_written (h : kernel.written u c img e = none) {b : UInt8} :
    ¬ kernel.Changes u c img e b := by
  unfold written at h
  split at h
  · cases h
  · rename_i hnone
    exact fun hb => hnone ⟨b, hb⟩

namespace Keeps

/-- **What a unit leaves is what it writes**, and what was there before where it writes nothing. -/
theorem effect (h : kernel.Keeps team c) (hu : u ∈ team) (hsame : c.SameOperands m.image img)
    (hrun : kernel u c m = .ok () m') (e : Endpoint) :
    m'.image e = (kernel.written u c img e).getD (m.image e) := by
  cases hwritten : kernel.written u c img e with
  | none =>
    by_contra hchange
    exact not_changes_of_written hwritten ⟨m, m', hsame, hrun, hchange, rfl⟩
  | some b =>
    obtain ⟨n, n', hn, hrun', hchange, rfl⟩ := changes_of_written hwritten
    rcases h.depends u hu m m' n n' (hsame.trans hn.symm) hrun hrun' e with ⟨-, hkept⟩ | heq
    · exact absurd hkept hchange
    · exact heq

theorem mayWrite_of_written (h : kernel.Keeps team c) (hu : u ∈ team) {b : UInt8}
    (hwritten : kernel.written u c img e = some b) : c.MayWrite e := by
  obtain ⟨n, n', -, hrun, hchange, -⟩ := changes_of_written hwritten
  by_contra he
  exact hchange (h.inside u hu n n' hrun e he)

theorem written_apart (h : kernel.Keeps team c) (hu : u ∈ team) (hv : v ∈ team) (hne : u ≠ v)
    {b : UInt8} (hwritten : kernel.written u c img e = some b) : kernel.written v c img e = none := by
  obtain ⟨m, m', hm, hrun, hchange, -⟩ := changes_of_written hwritten
  cases hother : kernel.written v c img e with
  | none => rfl
  | some b' =>
    obtain ⟨n, n', hn, hrun', hchange', -⟩ := changes_of_written hother
    exact absurd (h.apart u hu v hv hne m m' n n' (hm.trans hn.symm) hrun hrun' e)
      (not_or.mpr ⟨hchange, hchange'⟩)

end Keeps

end Kernel

/-! ## The depthwise kernel -/

namespace Depthwise

variable {c : Call} {u v : Member} {m m' n n' : Memory}

/-- The operands of a kernel are what the call reads. -/
theorem readOperands_congr {b b' : Bank} {o : Operands}
    (hsame : ∀ ranges, c.readRanges = .ok ranges → ∀ r ∈ ranges, ∀ i < r.2,
      b.byteAt (r.1 + i) = b'.byteAt (r.1 + i)) (h : readOperands c b = .ok o) :
    readOperands c b' = .ok o := by
  obtain ⟨input, weights, kappa, lambda, hbytes, hrow, hall, hinput, hweights, hkappa, hlambda, rfl⟩ :=
    readOperands_eq_ok_iff.mp h
  obtain ⟨words, hwords, -⟩ := Checked.bind_eq_ok.mp hkappa
  have hranges : c.readRanges = .ok [(c.input, c.inputDims.size),
      (c.weights, c.channels * c.kernel * c.kernel), (c.kappa, words), (c.lambda, words)] := by
    rw [Call.readRanges, hwords, Checked.ok_bind, hbytes, Checked.ok_bind, mul_of_lt hrow,
      Checked.ok_bind, mul_of_lt hall, Checked.ok_bind]
    rfl
  obtain ⟨-, rfl⟩ := mul_eq_ok_iff.mp hwords
  have hrange := hsame _ hranges
  rw [Bank.read_congr (hrange (c.input, _) (by simp))] at hinput
  rw [Bank.read_congr (hrange (c.weights, _) (by simp))] at hweights
  rw [Bank.readInt32s_congr (hrange (c.kappa, c.channels * 4) (by simp))] at hkappa
  rw [Bank.readInt32s_congr (hrange (c.lambda, c.channels * 4) (by simp))] at hlambda
  exact readOperands_eq_ok_iff.mpr
    ⟨input, weights, kappa, lambda, hbytes, hrow, hall, hinput, hweights, hkappa, hlambda, rfl⟩

/-- The same results, stored in two memories, leave each byte alone or make it the same. -/
theorem store_agree {output : Nat} {values : List (Nat × UInt8)}
    (h : store output values m = .ok () m') (h' : store output values n = .ok () n')
    (e : Endpoint) : (m'.image e = m.image e ∧ n'.image e = n.image e) ∨ m'.image e = n'.image e := by
  induction values generalizing m n with
  | nil =>
    cases h
    cases h'
    exact .inl ⟨rfl, rfl⟩
  | cons w values ih =>
    obtain ⟨-, mid, hwrite, hrest⟩ := store_cons.mp h
    obtain ⟨-, mid', hwrite', hrest'⟩ := store_cons.mp h'
    have himage := (Memory.writeByte_inv hwrite).1
    have himage' := (Memory.writeByte_inv hwrite').1
    rcases ih hrest hrest' with ⟨hkept, hkept'⟩ | heq
    · rw [himage] at hkept
      rw [himage'] at hkept'
      by_cases hhit : e = ⟨.scratchpad, output + w.1⟩
      · rw [hhit, Function.update_self] at hkept hkept'
        right
        rw [hhit, hkept, hkept']
      · rw [Function.update_of_ne hhit] at hkept hkept'
        exact .inl ⟨hkept, hkept'⟩
    · exact .inr heq

theorem sameOperands_bytes (h : c.SameOperands m.image n.image) {ranges : List (Nat × Nat)}
    (hranges : c.readRanges = .ok ranges) {r : Nat × Nat} (hr : r ∈ ranges) {i : Nat} (hi : i < r.2) :
    (m.bank .scratchpad).byteAt (r.1 + i) = (n.bank .scratchpad).byteAt (r.1 + i) :=
  h ⟨.scratchpad, r.1 + i⟩
    ⟨ranges, hranges, r, hr, rfl, Nat.le_add_right _ _, Nat.add_lt_add_left hi _⟩

/-- On the same operands a unit leaves the same. -/
theorem kernel_agree (hsame : c.SameOperands m.image n.image) (h : kernel u c m = .ok () m')
    (h' : kernel u c n = .ok () n') (e : Endpoint) :
    (m'.image e = m.image e ∧ n'.image e = n.image e) ∨ m'.image e = n'.image e := by
  obtain ⟨share, hshare, hdone⟩ := kernel_inv h
  obtain ⟨share', hshare', hdone'⟩ := kernel_inv h'
  cases hshare.symm.trans hshare'
  rcases hdone with ⟨hempty, rfl⟩ | ⟨hsome, operands, values, hread, hvalues, hstore⟩
  · rcases hdone' with ⟨-, rfl⟩ | ⟨hsome, -⟩
    · exact .inl ⟨rfl, rfl⟩
    · rw [hempty] at hsome
      cases hsome
  · rcases hdone' with ⟨hempty, -⟩ | ⟨-, operands', values', hread', hvalues', hstore'⟩
    · rw [hempty] at hsome
      cases hsome
    · have hmoved := readOperands_congr (fun _ hranges _ hr _ hi =>
        sameOperands_bytes hsame hranges hr hi) hread
      cases hmoved.symm.trans hread'
      cases hvalues.symm.trans hvalues'
      exact store_agree hstore hstore' e

/-- A byte that a unit changes belongs to one of its channels. -/
theorem position_of_change (h : kernel u c m = .ok () m') {e : Endpoint}
    (hchange : m'.image e ≠ m.image e) : ∃ share y x channel, u.share c.channels = .ok share ∧
      x < c.outputDims.cols ∧ share.start ≤ channel ∧ channel < share.stop ∧ e = ⟨.scratchpad,
        c.output + ((y * c.outputDims.cols + x) * c.outputDims.channels + channel)⟩ := by
  obtain ⟨share, hshare, ⟨-, rfl⟩ | ⟨-, operands, values, -, hvalues, hstore⟩⟩ := kernel_inv h
  · exact absurd rfl hchange
  · by_contra hnone
    refine hchange (store_missed hstore fun w hw hhit => hnone ?_)
    obtain ⟨y, x, channel, hmem, hresult⟩ := (mem_results hvalues).mp hw
    obtain ⟨-, hx, hlo, hhi⟩ := mem_positions.mp hmem
    refine ⟨share, y, x, channel, hshare, hx, hlo, by omega, ?_⟩
    rw [← hhit, result_offset hresult]

/-- Two units change no byte both. -/
theorem kernel_apart (hchannels : c.outputDims.channels = c.channels) (hsize : u.size = v.size)
    (hlt : u.index < v.index) (h : kernel u c m = .ok () m') (h' : kernel v c n = .ok () n')
    {e : Endpoint} (hchange : m'.image e ≠ m.image e) : n'.image e = n.image e := by
  by_contra hchange'
  obtain ⟨s, y, x, channel, hs, hx, hlo, hhi, rfl⟩ := position_of_change h hchange
  obtain ⟨t, y', x', channel', ht, hx', hlo', hhi', heq⟩ := position_of_change h' hchange'
  have hstop := Member.share_stop_le hs
  have hstop' := Member.share_stop_le ht
  have horder := Member.share_stop_le_start hsize hlt hs ht
  obtain ⟨-, -, hsame⟩ := index_inj hx (by omega) hx' (by omega)
    (Nat.add_left_cancel (congrArg Endpoint.addr heq))
  omega

/-- **The depthwise kernel keeps the contract** of a call whose output tile has its channels. -/
theorem kernel_keeps {r : Nat × Nat} (hchannels : c.outputDims.channels = c.channels)
    (hwrite : c.writeRange = .ok r) (units : Nat) : Kernel.Keeps kernel (Member.team units) c where
  depends _ _ _ _ _ _ hsame h h' := kernel_agree hsame h h'
  inside u _ m m' h e he := by
    refine kernel_confined.frame u c m m' hchannels h e fun hin => ?_
    exact he ((Call.mayWrite_iff hwrite).mpr hin)
  apart u hu v hv hne m m' n n' _ h h' e := by
    obtain ⟨-, hsize⟩ := Member.mem_team.mp hu
    obtain ⟨-, hsize'⟩ := Member.mem_team.mp hv
    have hindex : u.index ≠ v.index := by
      intro heq
      refine hne ?_
      obtain ⟨_, _⟩ := u
      obtain ⟨_, _⟩ := v
      simp only at heq hsize hsize'
      rw [heq, hsize, hsize']
    by_cases hkept : m'.image e = m.image e
    · exact .inl hkept
    · rcases Nat.lt_or_gt_of_ne hindex with hlt | hgt
      · exact .inr (kernel_apart hchannels (hsize.trans hsize'.symm) hlt h h' hkept)
      · by_contra hboth
        obtain ⟨-, hother⟩ := not_or.mp hboth
        exact hkept (kernel_apart hchannels (hsize'.trans hsize.symm) hgt h' h hother)

end Depthwise

end TileStream
