import Mathlib.Algebra.Ring.Nat
import TileStream.Proofs.Transfer.Retire

/-! # The engine executes transfers in order

A `Ledger` keeps every transfer that was ever submitted and a count of those
that have retired. Retiring up to a number applies the transfers below it to the
bytes, each once and in the order of submission; nothing else about a transfer
shows. `Follows` relates an engine to its ledger. Each call preserves it
(`follows_perform`), and so does every sequence of calls. -/
namespace TileStream

/-- A call to the engine, or to the memory beside it. -/
inductive EngineCall where
  | submit (d : Descriptor)
  | submitAndWait (d : Descriptor)
  /-- The number need not have been handed out. -/
  | wait (id : Nat)
  | isComplete (id : Nat)
  | drain
  | write (t : Tier) (addr : Nat) (data : List UInt8)
  | read (t : Tier) (addr len : Nat)

/-- What a call answers. -/
inductive EngineAnswer where
  | done
  | number (id : Nat)
  | complete (yes : Bool)
  | bytes (data : List UInt8)
  deriving DecidableEq

namespace EngineCall

def perform : EngineCall → Stateful Device EngineAnswer
  | submit d => do return .number (← Device.submit d)
  | submitAndWait d => do
    Device.submitAndWait d
    return .done
  | wait id => do
    Device.wait id
    return .done
  | isComplete id => do return .complete ((← get).queue.isComplete id)
  | drain => do
    Device.drain
    return .done
  | write t addr data => do
    Device.onMemory (Memory.onBank t (Bank.write addr data))
    return .done
  | read t addr len => do
    return .bytes (← Device.onMemory (Memory.look t (·.read addr len))).toList

def performAll : List EngineCall → Stateful Device (List EngineAnswer)
  | [] => pure []
  | c :: cs => do
    let answer ← c.perform
    let answers ← performAll cs
    return answer :: answers

def transfers : EngineCall → List Descriptor
  | submit d | submitAndWait d => [d]
  | _ => []

/-- A direct access stays below the last address and fits a buffer. -/
def AccessFits : EngineCall → Prop
  | write _ addr data => TileStream.AccessFits addr data.length
  | read _ addr len => TileStream.AccessFits addr len ∧ len ≤ maxBuffer
  | _ => True

end EngineCall

/-! ## The ledger -/

/-- The number and the bytes of the transfers of one payload. -/
def tally (payload : Payload) (ds : List Descriptor) : Count where
  transfers := (ds.filter (·.payload = payload)).length
  bytes := ((ds.filter (·.payload = payload)).map (·.byteCount)).sum

/-- A machine that remembers all transfers and executes them in order. -/
structure Ledger where
  /-- Transfer `id` at position `id`. -/
  submitted : List Descriptor
  retired : Nat
  image : Image
  /-- The most transfers that were queued at any time. -/
  longest : Nat
  /-- Submissions that met a full queue. -/
  stalls : Nat

namespace Ledger

def start (img : Image) : Ledger := ⟨[], 0, img, 0, 0⟩

def queued (l : Ledger) : List Descriptor := l.submitted.drop l.retired

/-- Retire every transfer with a number below `n`, and no other. -/
def retireTo (l : Ledger) (n : Nat) : Ledger := { l with
  retired := max l.retired (min n l.submitted.length)
  image := l.image.applyAll ((l.submitted.take n).drop l.retired) }

/-- Add a transfer at the end, and look at the length of the queue. -/
def append (l : Ledger) (d : Descriptor) : Ledger := { l with
  submitted := l.submitted ++ [d]
  longest := max l.longest (l.queued.length + 1) }

/-- Submit to an engine that holds `depth` transfers at most. -/
def submit (depth : Nat) (l : Ledger) (d : Descriptor) : Ledger :=
  if l.queued.length < depth then l.append d
  else ({ l with stalls := l.stalls + 1 }.retireTo (l.retired + 1)).append d

def perform (depth : Nat) (l : Ledger) : EngineCall → EngineAnswer × Ledger
  | .submit d => (.number l.submitted.length, l.submit depth d)
  | .submitAndWait d => (.done, (l.submit depth d).retireTo (l.submitted.length + 1))
  | .wait id => (.done, l.retireTo (id + 1))
  | .isComplete id => (.complete (id < l.retired), l)
  | .drain => (.done, l.retireTo l.submitted.length)
  | .write t addr data => (.done, { l with image := l.image.store t addr data })
  | .read t addr len => (.bytes (l.image.range t addr len), l)

def performAll (depth : Nat) (l : Ledger) : List EngineCall → List EngineAnswer × Ledger
  | [] => ([], l)
  | c :: cs =>
    let rest := (l.perform depth c).2.performAll depth cs
    ((l.perform depth c).1 :: rest.1, rest.2)

end Ledger

/-- An engine that accepts `depth` transfers is where its ledger says. -/
structure Follows (depth : Nat) (l : Ledger) (s : Device) : Prop where
  accepts : s.queue.depth = depth
  retired : s.queue.retired = l.retired
  pending : s.queue.pending = l.submitted.drop l.retired
  nextId : s.queue.nextId = l.submitted.length
  bounded : s.queue.inFlight ≤ depth
  image : s.memory.image = l.image
  traffic : ∀ p, s.queue.traffic.of p = tally p (l.submitted.take l.retired)
  longest : s.queue.maxInFlight = l.longest
  stalls : s.queue.stalls = l.stalls

theorem tally_append_singleton (p : Payload) (ds : List Descriptor) (d : Descriptor) :
    tally p (ds ++ [d]) =
      if p = d.payload then (tally p ds).record d.byteCount else tally p ds := by
  by_cases h : p = d.payload
  · simp [tally, Count.record, h]
  · simp [tally, Ne.symm h, h]

/-- Counting transfers one by one counts each payload. -/
theorem of_foldl_retire {t : Traffic} {before : List Descriptor}
    (h : ∀ p, t.of p = tally p before) (ds : List Descriptor) :
    ∀ p, (ds.foldl Traffic.retire t).of p = tally p (before ++ ds) := by
  induction ds generalizing t before with
  | nil => simpa using h
  | cons d ds ih =>
    intro p
    have hstep : ∀ p, (t.retire d).of p = tally p (before ++ [d]) := by
      intro p
      rw [Traffic.retire, Traffic.of_record, tally_append_singleton, h]
    rw [List.foldl_cons, ih hstep, List.append_assoc, List.singleton_append]

/-! ## Each call -/

namespace Follows

variable {depth : Nat} {l : Ledger} {s s' : Device}

theorem retired_le (h : Follows depth l s) : l.retired ≤ l.submitted.length := by
  have hnext := h.nextId
  rw [Queue.nextId, h.retired] at hnext
  omega

theorem length_pending (h : Follows depth l s) :
    s.queue.pending.length = l.submitted.length - l.retired := by
  rw [h.pending, List.length_drop]

/-- Retiring the `n` oldest is retiring up to number `k` when these are the queued ones below `k`. -/
theorem retireTo (h : Follows depth l s) {n k : Nat}
    (hn : n = min k l.submitted.length - l.retired) (hs : Device.Retired n s s') :
    Follows depth (l.retireTo k) s' := by
  have hle := h.retired_le
  have hmax : max l.retired (min k l.submitted.length) = l.retired + n := by omega
  have htake : s.queue.pending.take n = (l.submitted.take k).drop l.retired := by
    rw [h.pending, List.drop_take]
    apply List.take_eq_take_iff.mpr
    rw [List.length_drop]
    omega
  have hsplit : l.submitted.take l.retired ++ s.queue.pending.take n =
      l.submitted.take (l.retired + n) := by
    rw [h.pending, List.take_add]
  refine ⟨?_, ?_, ?_, ?_, ?_, ?_, ?_, ?_, ?_⟩
  · rw [hs.queue]
    exact h.accepts
  · rw [hs.queue, Ledger.retireTo, hmax, ← h.retired]
    rfl
  · simp only [hs.queue, Queue.after, Ledger.retireTo, hmax, h.pending, List.drop_drop]
  · rw [hs.queue, Queue.nextId_after (by rw [h.length_pending]; omega)]
    exact h.nextId
  · have hlen := h.bounded
    simp only [hs.queue, Queue.inFlight, Queue.after, List.length_drop] at hlen ⊢
    omega
  · rw [hs.image, h.image, htake]
    rfl
  · intro p
    simp only [hs.queue, Queue.after, Ledger.retireTo, hmax]
    rw [of_foldl_retire h.traffic, hsplit]
  · rw [hs.queue]
    exact h.longest
  · rw [hs.queue]
    exact h.stalls

/-- A queue with room takes one more transfer. -/
theorem append (h : Follows depth l s) (hroom : s.queue.inFlight < depth) (d : Descriptor) :
    Follows depth (l.append d) ⟨s.memory, s.queue.push d⟩ := by
  have hle := h.retired_le
  refine ⟨h.accepts, h.retired, ?_, ?_, ?_, h.image, ?_, ?_, h.stalls⟩
  · simp only [Queue.push, Ledger.append]
    rw [h.pending, List.drop_append_of_le_length hle]
  · have hnext := h.nextId
    simp only [Queue.nextId, Queue.push, Ledger.append, List.length_append, List.length_singleton]
      at hnext ⊢
    omega
  · simp only [Queue.inFlight, Queue.push, List.length_append, List.length_singleton] at hroom ⊢
    omega
  · intro p
    simp only [Queue.push, Ledger.append]
    rw [h.traffic, List.take_append_of_le_length hle]
  · simp only [Queue.push, Ledger.append, Ledger.queued]
    rw [h.longest, Queue.inFlight, h.pending]

theorem stall (h : Follows depth l s) :
    Follows depth { l with stalls := l.stalls + 1 }
      ⟨s.memory, { s.queue with stalls := s.queue.stalls + 1 }⟩ :=
  ⟨h.accepts, h.retired, h.pending, h.nextId, h.bounded, h.image, h.traffic, h.longest,
    congrArg (· + 1) h.stalls⟩

theorem submit (h : Follows depth l s) (hdepth : 0 < depth) {d : Descriptor}
    (hs : Device.Submitted d s s') : Follows depth (l.submit depth d) s' := by
  have hdep := h.accepts
  have hlen := h.length_pending
  have hqueued : l.queued.length = s.queue.inFlight := by rw [Ledger.queued, ← h.pending]; rfl
  have hs' : s' = ⟨s'.memory, (s.queue.meet.after s.queue.overflow).push d⟩ := by rw [← hs.queue]
  rw [hs', Ledger.submit, hqueued]
  split
  · rename_i hroom
    have hover : s.queue.overflow = 0 := if_neg (by omega)
    have hmeet : s.queue.meet = s.queue := by
      rw [Queue.meet, if_neg (by omega)]
    rw [hover, hmeet]
    have himage := hs.image
    rw [hover] at himage
    exact (Follows.append (s := ⟨s'.memory, s.queue⟩) ⟨h.accepts, h.retired, h.pending, h.nextId,
      h.bounded, himage.trans h.image, h.traffic, h.longest, h.stalls⟩ hroom d)
  · rename_i hfull
    have hbound := h.bounded
    have hover : s.queue.overflow = 1 := by
      rw [Queue.overflow, if_pos (by omega)]
      omega
    have hmeet : s.queue.meet = { s.queue with stalls := s.queue.stalls + 1 } := by
      rw [Queue.meet, if_pos (by omega)]
    rw [Queue.inFlight] at hfull hbound
    have hhead : Device.Retired 1 ⟨s.memory, { s.queue with stalls := s.queue.stalls + 1 }⟩
        ⟨s'.memory, s.queue.meet.after 1⟩ := by
      refine ⟨by rw [hmeet], ?_, ?_⟩
      · rw [← hover]; exact hs.image
      · rw [← hover]; exact hs.reads
    have hmid := h.stall.retireTo (k := l.retired + 1) (by simp only; omega) hhead
    rw [hover]
    refine hmid.append ?_ d
    simp only [Queue.inFlight, Queue.after, Queue.meet, List.length_drop]
    omega

end Follows

theorem Ledger.submitted_submit (depth : Nat) (l : Ledger) (d : Descriptor) :
    (l.submit depth d).submitted = l.submitted ++ [d] := by
  unfold Ledger.submit
  split <;> rfl

/-- What holds of all transfers that were submitted holds of the queued ones. -/
theorem Follows.forall_pending {depth : Nat} {l : Ledger} {s : Device} {P : Descriptor → Prop}
    (h : Follows depth l s) (hall : ∀ d ∈ l.submitted, P d) : ∀ d ∈ s.queue.pending, P d := by
  intro d hd
  rw [h.pending] at hd
  exact hall d (List.mem_of_mem_drop hd)

/-- What holds of all transfers so far and of those of a call holds of all transfers after it. -/
theorem forall_submitted_perform {depth : Nat} {l : Ledger} {c : EngineCall}
    {P : Descriptor → Prop} (hall : ∀ d ∈ l.submitted, P d) (hcall : ∀ d ∈ c.transfers, P d) :
    ∀ d ∈ (l.perform depth c).2.submitted, P d := by
  intro d hd
  cases c with
  | submit e =>
    rw [Ledger.perform, Ledger.submitted_submit, List.mem_append] at hd
    exact hd.elim (hall d) (hcall d)
  | submitAndWait e =>
    rw [Ledger.perform, Ledger.retireTo, Ledger.submitted_submit, List.mem_append] at hd
    exact hd.elim (hall d) (hcall d)
  | _ => exact hall d hd

/-- A call that finishes answers as the ledger does and leaves the engine where the ledger is. -/
theorem follows_perform {depth : Nat} (hdepth : 0 < depth) {l : Ledger} {s s' : Device}
    {c : EngineCall} {answer : EngineAnswer} (h : Follows depth l s)
    (hfits : ∀ d ∈ l.submitted, d.Addressed) (hcall : ∀ d ∈ c.transfers, d.Addressed)
    (hok : c.perform s = .ok answer s') :
    answer = (l.perform depth c).1 ∧ Follows depth (l.perform depth c).2 s' := by
  have haddr := h.forall_pending hfits
  have hqdepth : 0 < s.queue.depth := by rw [h.accepts]; exact hdepth
  have hlen := h.length_pending
  have hretired := h.retired
  have hle := h.retired_le
  cases c with
  | submit d =>
    obtain ⟨id, s₁, hs, hret⟩ := Stateful.bind_eq_ok.mp hok
    cases hret
    obtain ⟨hsub, rfl⟩ := Device.submit_inv hqdepth haddr hs
    exact ⟨congrArg EngineAnswer.number h.nextId, h.submit hdepth hsub⟩
  | submitAndWait d =>
    obtain ⟨_, s₂, hboth, hret⟩ := Stateful.bind_eq_ok.mp hok
    cases hret
    obtain ⟨id, s₁, hs, hw⟩ := Stateful.bind_eq_ok.mp hboth
    obtain ⟨hsub, rfl⟩ := Device.submit_inv hqdepth haddr hs
    have h₁ := h.submit hdepth hsub
    have haddr₁ : ∀ e ∈ s₁.queue.pending, e.Addressed :=
      h₁.forall_pending (forall_submitted_perform (c := .submit d) hfits hcall)
    refine ⟨rfl, h₁.retireTo ?_ (Device.wait_inv haddr₁ hw)⟩
    rw [Queue.before, Queue.inFlight, h₁.length_pending, h₁.retired, h.nextId]
    omega
  | wait id =>
    obtain ⟨_, s₁, hw, hret⟩ := Stateful.bind_eq_ok.mp hok
    cases hret
    refine ⟨rfl, h.retireTo ?_ (Device.wait_inv haddr hw)⟩
    rw [Queue.before, Queue.inFlight, hlen, hretired]
    omega
  | isComplete id =>
    cases hok
    refine ⟨?_, h⟩
    rw [Queue.isComplete, h.retired]
    rfl
  | drain =>
    obtain ⟨_, s₁, hd, hret⟩ := Stateful.bind_eq_ok.mp hok
    cases hret
    refine ⟨rfl, h.retireTo ?_ (Device.drain_inv haddr hd)⟩
    omega
  | write t addr data =>
    obtain ⟨_, s₁, hw, hret⟩ := Stateful.bind_eq_ok.mp hok
    cases hret
    obtain ⟨m', hm, rfl⟩ := Device.onMemory_inv hw
    obtain ⟨himg, -⟩ := Memory.onBank_write_inv hm
    refine ⟨rfl, h.accepts, h.retired, h.pending, h.nextId, h.bounded, ?_, h.traffic, h.longest,
      h.stalls⟩
    rw [himg, h.image]
    rfl
  | read t addr len =>
    obtain ⟨bytes, s₁, hr, hret⟩ := Stateful.bind_eq_ok.mp hok
    cases hret
    obtain ⟨m', hm, rfl⟩ := Device.onMemory_inv hr
    obtain ⟨rfl, hbytes⟩ := Memory.look_read_inv hm
    refine ⟨?_, h⟩
    rw [hbytes, h.image]
    rfl

/-- The same for calls one after the other. -/
theorem follows_performAll {depth : Nat} (hdepth : 0 < depth) :
    ∀ {calls : List EngineCall} {l : Ledger} {s s' : Device} {answers : List EngineAnswer},
      Follows depth l s → (∀ d ∈ l.submitted, d.Addressed) →
      (∀ c ∈ calls, ∀ d ∈ c.transfers, d.Addressed) →
      EngineCall.performAll calls s = .ok answers s' →
      answers = (l.performAll depth calls).1 ∧ Follows depth (l.performAll depth calls).2 s'
  | [], l, s, s', answers, h, _, _, hok => by
    cases hok
    exact ⟨rfl, h⟩
  | c :: cs, l, s, s', answers, h, hfits, hcalls, hok => by
    obtain ⟨answer, s₁, hc, hrest⟩ := Stateful.bind_eq_ok.mp hok
    obtain ⟨rest, s₂, hcs, hret⟩ := Stateful.bind_eq_ok.mp hrest
    cases hret
    have hcall := hcalls c List.mem_cons_self
    obtain ⟨hanswer, h₁⟩ := follows_perform hdepth h hfits hcall hc
    obtain ⟨hanswers, h₂⟩ := follows_performAll hdepth h₁ (forall_submitted_perform hfits hcall)
      (fun e he => hcalls e (List.mem_cons_of_mem c he)) hcs
    exact ⟨by rw [hanswer, hanswers]; rfl, h₂⟩

/-! ## Calls that finish -/

theorem perform_exists {depth : Nat} (hdepth : 0 < depth) {l : Ledger} {s : Device}
    {c : EngineCall} (h : Follows depth l s) (hfits : ∀ d ∈ l.submitted, d.Fits)
    (hcall : ∀ d ∈ c.transfers, d.Fits) (haccess : c.AccessFits)
    (hroom : ∀ t, s.readTotal t + readBytes t c.transfers < wordLimit) :
    ∃ answer s', c.perform s = .ok answer s' ∧
      ∀ t, s'.readTotal t = s.readTotal t + readBytes t c.transfers := by
  have hpending : ∀ d ∈ s.queue.pending, d.Fits := h.forall_pending hfits
  have haddr : ∀ d ∈ s.queue.pending, d.Addressed := fun d hd => (hpending d hd).toAddressed
  have hqdepth : 0 < s.queue.depth := by rw [h.accepts]; exact hdepth
  have hnow : ∀ t, s.readTotal t < wordLimit := fun t =>
    Nat.lt_of_le_of_lt (Nat.le_add_right _ _) (hroom t)
  cases c with
  | submit d =>
    obtain ⟨id, s₁, hs⟩ := Device.submit_exists (d := d) hqdepth hpending hnow
    obtain ⟨hsub, -⟩ := Device.submit_inv hqdepth haddr hs
    exact ⟨.number id, s₁, by rw [EngineCall.perform, Stateful.bind_of_ok hs]; rfl, hsub.readTotal⟩
  | submitAndWait d =>
    obtain ⟨id, s₁, hs⟩ := Device.submit_exists (d := d) hqdepth hpending hnow
    obtain ⟨hsub, -⟩ := Device.submit_inv hqdepth haddr hs
    have hpending₁ : ∀ e ∈ s₁.queue.pending, e.Fits := by
      intro e he
      rcases hsub.mem_pending he with hold | rfl
      · exact hpending e hold
      · exact hcall e List.mem_cons_self
    obtain ⟨s₂, hw⟩ := Device.wait_exists id hpending₁ (fun t => by
      have htotal := hsub.readTotal t
      have hlt := hroom t
      unfold Device.readTotal at htotal hlt
      rw [htotal]
      exact hlt)
    have hret := Device.wait_inv (fun e he => (hpending₁ e he).toAddressed) hw
    refine ⟨.done, s₂, ?_, fun t => (hret.readTotal t).trans (hsub.readTotal t)⟩
    rw [EngineCall.perform, Device.submitAndWait, bind_assoc, Stateful.bind_of_ok hs,
      Stateful.bind_of_ok hw]
    rfl
  | wait id =>
    obtain ⟨s₁, hw⟩ := Device.wait_exists id hpending hnow
    exact ⟨.done, s₁, by rw [EngineCall.perform, Stateful.bind_of_ok hw]; rfl,
      (Device.wait_inv haddr hw).readTotal⟩
  | isComplete id => exact ⟨_, s, rfl, fun t => rfl⟩
  | drain =>
    obtain ⟨s₁, hd⟩ := Device.drain_exists hpending hnow
    exact ⟨.done, s₁, by rw [EngineCall.perform, Stateful.bind_of_ok hd]; rfl,
      (Device.drain_inv haddr hd).readTotal⟩
  | write t addr data =>
    obtain ⟨m, hm⟩ := Memory.onBank_write_exists haccess s.memory t
    obtain ⟨-, hcount⟩ := Memory.onBank_write_inv hm
    refine ⟨.done, ⟨m, s.queue⟩, ?_, fun u => ?_⟩
    · rw [EngineCall.perform, Stateful.bind_of_ok (Device.onMemory_of_ok hm s.queue)]
      rfl
    · simp only [Device.readTotal, hcount]
      rfl
  | read t addr len =>
    obtain ⟨bytes, hm, -⟩ := Memory.look_read_exists haccess.1 haccess.2 s.memory t
    refine ⟨.bytes bytes.toList, s, ?_, fun u => rfl⟩
    rw [EngineCall.perform, Stateful.bind_of_ok (Device.onMemory_of_ok hm s.queue)]
    rfl

theorem performAll_exists {depth : Nat} (hdepth : 0 < depth) :
    ∀ {calls : List EngineCall} {l : Ledger} {s : Device}, Follows depth l s →
      (∀ d ∈ l.submitted, d.Fits) →
      (∀ c ∈ calls, c.AccessFits ∧ ∀ d ∈ c.transfers, d.Fits) →
      (∀ t, s.readTotal t + readBytes t (calls.flatMap (·.transfers)) < wordLimit) →
      ∃ answers s', EngineCall.performAll calls s = .ok answers s'
  | [], l, s, _, _, _, _ => ⟨[], s, rfl⟩
  | c :: cs, l, s, h, hfits, hcalls, hroom => by
    simp only [List.flatMap_cons, readBytes_append] at hroom
    obtain ⟨haccess, hcall⟩ := hcalls c List.mem_cons_self
    obtain ⟨answer, s₁, hc, htotal⟩ := perform_exists hdepth h hfits hcall haccess
      (fun t => Nat.lt_of_le_of_lt (by omega) (hroom t))
    obtain ⟨-, h₁⟩ := follows_perform hdepth h (fun d hd => (hfits d hd).toAddressed)
      (fun d hd => (hcall d hd).toAddressed) hc
    obtain ⟨answers, s₂, hcs⟩ := performAll_exists hdepth h₁ (forall_submitted_perform hfits hcall)
      (fun e he => hcalls e (List.mem_cons_of_mem c he))
      (fun t => by rw [htotal, Nat.add_assoc]; exact hroom t)
    refine ⟨answer :: answers, s₂, ?_⟩
    rw [EngineCall.performAll, Stateful.bind_of_ok hc, Stateful.bind_of_ok hcs]
    rfl

/-- **The engine executes transfers in order.** Whatever is called on a new engine, the answers are
those of the ledger and the engine stays where the ledger is. The calls finish when every
transfer and every access fits and no read counter overflows. -/
theorem engine_executes_in_order (depth : Nat) (m : Memory) (calls : List EngineCall)
    (haddr : ∀ c ∈ calls, ∀ d ∈ c.transfers, d.Addressed) :
    (∀ answers s, EngineCall.performAll calls ⟨m, .ofDepth depth⟩ = .ok answers s →
      answers = ((Ledger.start m.image).performAll (max depth 1) calls).1 ∧
      Follows (max depth 1) ((Ledger.start m.image).performAll (max depth 1) calls).2 s) ∧
    ((∀ c ∈ calls, c.AccessFits ∧ ∀ d ∈ c.transfers, d.byteCount ≤ maxBuffer) →
      (∀ t, m.readCount t + readBytes t (calls.flatMap (·.transfers)) < wordLimit) →
      ∃ answers s, EngineCall.performAll calls ⟨m, .ofDepth depth⟩ = .ok answers s) := by
  have hdepth : 0 < max depth 1 := by omega
  have hstart : Follows (max depth 1) (Ledger.start m.image) ⟨m, .ofDepth depth⟩ :=
    ⟨rfl, rfl, rfl, rfl, Nat.zero_le _, rfl, fun p => by cases p <;> rfl, rfl, rfl⟩
  constructor
  · intro answers s hok
    exact follows_performAll hdepth hstart (by simp [Ledger.start]) haddr hok
  · intro hfits hroom
    refine performAll_exists hdepth hstart (by simp [Ledger.start]) (fun c hc => ?_) hroom
    exact ⟨(hfits c hc).1, fun d hd => ⟨haddr c hc d hd, (hfits c hc).2 d hd⟩⟩

/-- Two strided runs of two bytes, gathered into the scratchpad. -/
def pairOfRuns : Descriptor :=
  ⟨.input, .gather, ⟨.mid, 16⟩, ⟨.scratchpad, 0⟩, ⟨2, ⟨2, 8⟩, ⟨1, 0⟩⟩⟩

theorem pairOfRuns_addressed : pairOfRuns.Addressed := by
  refine ⟨?_, .inr (by decide)⟩
  intro j hj
  have hcases : j = 0 ∨ j = 1 := by
    have : pairOfRuns.shape.runs = 2 := rfl
    omega
  rcases hcases with rfl | rfl
  · exact ⟨16, rfl, .inr (by decide)⟩
  · exact ⟨24, rfl, .inr (by decide)⟩

/-- Waiting for a number that was never handed out retires the transfer. -/
theorem engine_executes_in_order_pair :
    ∃ s, EngineCall.performAll [.submit pairOfRuns, .isComplete 0, .wait 7, .isComplete 0]
      ⟨.empty 64, .ofDepth 0⟩ =
        .ok [.number 0, .complete false, .done, .complete true] s ∧
      s.queue.pending = [] := by
  have htransfers : ∀ c ∈ [EngineCall.submit pairOfRuns, .isComplete 0, .wait 7, .isComplete 0],
      ∀ d ∈ c.transfers, d = pairOfRuns := by decide
  have haccess : ∀ c ∈ [EngineCall.submit pairOfRuns, .isComplete 0, .wait 7, .isComplete 0],
      c.AccessFits := by simp [EngineCall.AccessFits]
  obtain ⟨hfollow, hfinish⟩ := engine_executes_in_order 0 (.empty 64)
    [.submit pairOfRuns, .isComplete 0, .wait 7, .isComplete 0]
    (fun c hc d hd => htransfers c hc d hd ▸ pairOfRuns_addressed)
  obtain ⟨answers, s, hok⟩ := hfinish
    (fun c hc => ⟨haccess c hc, fun d hd => by rw [htransfers c hc d hd]; decide⟩)
    (fun t => by cases t <;> decide)
  obtain ⟨rfl, hfollows⟩ := hfollow answers s hok
  exact ⟨s, hok, hfollows.pending⟩

end TileStream
