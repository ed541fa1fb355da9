import TileStream.Proofs.Transfer.Effect
import TileStream.Transfer.Queue

/-! # Retiring transfers

`Device.retire` takes transfers off the front of the queue; `Retired` says what
that does to queue, bytes and read counters. The inversion lemmas say that a
finished operation can have done nothing else, the `_exists` lemmas that it
finishes as long as the read counters have room. -/
namespace TileStream

/-- The effects of several transfers, one after the other. -/
def Image.applyAll (img : Image) (ds : List Descriptor) : Image :=
  ds.foldl (fun img d => d.apply img) img

/-- The bytes that some transfers read from a tier. -/
def readBytes (t : Tier) : List Descriptor → Nat
  | [] => 0
  | d :: ds => (if t = d.sourceTier then d.byteCount else 0) + readBytes t ds

theorem Image.applyAll_cons (img : Image) (d : Descriptor) (ds : List Descriptor) :
    img.applyAll (d :: ds) = (d.apply img).applyAll ds := rfl

theorem Image.applyAll_append (img : Image) (ds es : List Descriptor) :
    img.applyAll (ds ++ es) = (img.applyAll ds).applyAll es :=
  List.foldl_append

theorem readBytes_append (t : Tier) (ds es : List Descriptor) :
    readBytes t (ds ++ es) = readBytes t ds + readBytes t es := by
  induction ds with
  | nil => simp [readBytes]
  | cons d ds ih => simp [readBytes, ih, Nat.add_assoc]

theorem readBytes_perm {t : Tier} {ds es : List Descriptor} (h : ds.Perm es) :
    readBytes t ds = readBytes t es := by
  induction h with
  | nil => rfl
  | cons d _ ih => rw [readBytes, readBytes, ih]
  | swap d e ds => simp only [readBytes, Nat.add_left_comm]
  | trans _ _ ih ih' => exact ih.trans ih'

namespace Descriptor

/-- Moves one after the other that finish have had their effects, if each that finishes has computed its
addresses. -/
theorem moveAll_inv {ds : List Descriptor}
    (haddr : ∀ d ∈ ds, ∀ m m', d.move m = .ok () m' → d.Addressed) {m m' : Memory}
    (h : ds.forM move m = .ok () m') : m'.image = m.image.applyAll ds := by
  induction ds generalizing m with
  | nil =>
    cases h
    rfl
  | cons d ds ih =>
    obtain ⟨_, m₁, hhead, htail⟩ := Stateful.bind_eq_ok.mp h
    obtain ⟨himage, -⟩ := move_inv (haddr d List.mem_cons_self m m₁ hhead) hhead
    rw [ih (fun d' hd' => haddr d' (List.mem_cons_of_mem d hd')) htail, himage]
    rfl

/-- Moves of transfers that fit finish when the read counters have room for all of them. -/
theorem moveAll_exists {ds : List Descriptor} (hfits : ∀ d ∈ ds, d.Fits) {m : Memory}
    (hroom : ∀ d ∈ ds, m.readCount d.sourceTier + readBytes d.sourceTier ds < wordLimit) :
    ∃ m', ds.forM move m = .ok () m' := by
  induction ds generalizing m with
  | nil => exact ⟨m, rfl⟩
  | cons d ds ih =>
    have hfirst := hroom d List.mem_cons_self
    rw [readBytes, if_pos rfl] at hfirst
    obtain ⟨m₁, hhead, -, hcount⟩ := move_of_fits (m := m) (hfits d List.mem_cons_self) (by omega)
    obtain ⟨m', htail⟩ := ih (m := m₁) (fun d' hd' => hfits d' (List.mem_cons_of_mem d hd'))
      fun d' hd' => by
        rw [hcount, Nat.add_assoc]
        exact hroom d' (List.mem_cons_of_mem d hd')
    exact ⟨m', (Stateful.bind_of_ok hhead).trans htail⟩

end Descriptor

/-- One more retired transfer in the counters. -/
def Traffic.retire (t : Traffic) (d : Descriptor) : Traffic := t.record d.payload d.byteCount

namespace Queue

/-- The queue without its `n` oldest transfers. -/
def after (q : Queue) (n : Nat) : Queue := { q with
  retired := q.retired + n
  pending := q.pending.drop n
  traffic := (q.pending.take n).foldl Traffic.retire q.traffic }

theorem after_succ {q : Queue} {d : Descriptor} {rest : List Descriptor} (n : Nat)
    (h : q.pending = d :: rest) : q.after (n + 1) = (q.after 1).after n := by
  simp only [after, h, List.drop_succ_cons, List.drop_zero, List.take_succ_cons, List.take_zero,
    List.foldl_cons, List.foldl_nil]
  rw [show q.retired + (n + 1) = q.retired + 1 + n by omega]

end Queue

namespace Device

/-- A computation on the memory leaves the queue alone. -/
theorem onMemory_inv {α : Type} {x : Stateful Memory α} {s s' : Device} {a : α}
    (h : onMemory x s = .ok a s') : ∃ m, x s.memory = .ok a m ∧ s' = ⟨m, s.queue⟩ := by
  obtain ⟨memory, queue⟩ := s
  unfold onMemory at h
  cases hx : x memory with
  | error e m => simp only [hx] at h; cases h
  | ok b m =>
    simp only [hx] at h
    cases h
    exact ⟨m, rfl, rfl⟩

theorem onMemory_of_ok {α : Type} {x : Stateful Memory α} {m m' : Memory} {a : α}
    (h : x m = .ok a m') (q : Queue) : onMemory x ⟨m, q⟩ = .ok a ⟨m', q⟩ := by
  simp only [onMemory, h]

/-- From `s` to `s'` the `n` oldest transfers have retired. -/
structure Retired (n : Nat) (s s' : Device) : Prop where
  queue : s'.queue = s.queue.after n
  image : s'.memory.image = s.memory.image.applyAll (s.queue.pending.take n)
  reads : ∀ t, s'.memory.readCount t = s.memory.readCount t + readBytes t (s.queue.pending.take n)

theorem Retired.zero (s : Device) : Retired 0 s s := ⟨rfl, rfl, fun _ => rfl⟩

theorem Retired.step {s s₁ s' : Device} {d : Descriptor} {rest : List Descriptor} {n : Nat}
    (hq : s.queue.pending = d :: rest) (h₁ : Retired 1 s s₁) (h : Retired n s₁ s') :
    Retired (n + 1) s s' := by
  have hrest : s₁.queue.pending = rest := by rw [h₁.queue]; simp [Queue.after, hq]
  refine ⟨?_, ?_, fun t => ?_⟩
  · rw [h.queue, h₁.queue, Queue.after_succ n hq]
  · rw [h.image, h₁.image, hrest, hq]
    rfl
  · rw [h.reads, h₁.reads, hrest, hq]
    simp only [List.take_succ_cons, List.take_zero, readBytes]
    omega

/-- The bytes that transfers have read from a tier, and those that the queued ones will read. -/
def readTotal (s : Device) (t : Tier) : Nat :=
  s.memory.readCount t + readBytes t s.queue.pending

theorem Retired.readTotal {n : Nat} {s s' : Device} (h : Retired n s s') (t : Tier) :
    s'.readTotal t = s.readTotal t := by
  unfold Device.readTotal
  rw [h.reads, h.queue, Queue.after, Nat.add_assoc, ← readBytes_append, List.take_append_drop]

theorem retireHead_inv {s s' : Device} {d : Descriptor} {rest : List Descriptor}
    (hq : s.queue.pending = d :: rest) (hd : d.Addressed) (h : retireHead s = .ok () s') :
    Retired 1 s s' := by
  obtain ⟨memory, queue⟩ := s
  simp only at hq
  simp only [retireHead, hq] at h
  cases hmove : d.move memory with
  | error e m => rw [hmove] at h; cases h
  | ok u m =>
    rw [hmove] at h
    cases h
    obtain ⟨himg, hreads⟩ := Descriptor.move_inv hd hmove
    refine ⟨?_, ?_, fun t => ?_⟩
    · simp [Queue.after, hq, Traffic.retire, Descriptor.byteCount, Shape.byteCount]
    · simp only [hq, List.take_succ_cons, List.take_zero]
      exact himg
    · simp [hq, hreads t, readBytes]

theorem retireHead_exists {s : Device} {d : Descriptor} {rest : List Descriptor}
    (hq : s.queue.pending = d :: rest) (hd : d.Fits)
    (hroom : s.memory.readCount d.sourceTier + d.byteCount < wordLimit) :
    ∃ s', retireHead s = .ok () s' := by
  obtain ⟨memory, queue⟩ := s
  obtain ⟨m, hmove, -⟩ := Descriptor.move_of_fits hd hroom
  simp only at hq
  simp only [retireHead, hq, hmove]
  exact ⟨_, rfl⟩

/-- The oldest transfer retires exactly if a buffer holds its bytes and the read counter of its source
has room for them. -/
theorem retireHead_finishes_iff {s : Device} {d : Descriptor} {rest : List Descriptor}
    (hq : s.queue.pending = d :: rest) (hd : d.Addressed) :
    (∃ s', retireHead s = .ok () s') ↔ d.byteCount ≤ maxBuffer ∧
      s.memory.readCount d.sourceTier + d.byteCount < wordLimit := by
  refine ⟨?_, fun ⟨hbuffer, hroom⟩ => retireHead_exists hq ⟨hd, hbuffer⟩ hroom⟩
  obtain ⟨memory, queue⟩ := s
  simp only at hq
  simp only [retireHead, hq]
  rintro ⟨s', h⟩
  have hmoves : ∀ e m, d.move memory ≠ .error e m := by
    intro e m hmove
    rw [hmove] at h
    cases h
  have hbuffer : d.byteCount ≤ maxBuffer := by
    by_contra hlarge
    obtain ⟨e, m, hmove⟩ := Descriptor.move_of_large (Nat.lt_of_not_le hlarge) memory
    exact hmoves e m hmove
  refine ⟨hbuffer, ?_⟩
  by_contra hfull
  obtain ⟨m, hmove⟩ := Descriptor.move_of_full ⟨hd, hbuffer⟩ hfull
  exact hmoves _ m hmove

theorem retire_inv : ∀ {n : Nat} {s s' : Device}, n ≤ s.queue.pending.length →
    (∀ d ∈ s.queue.pending, d.Addressed) → retire n s = .ok () s' → Retired n s s'
  | 0, s, s', _, _, h => by
    cases h
    exact Retired.zero _
  | n + 1, s, s', hn, hfits, h => by
    obtain ⟨d, rest, hq⟩ := List.exists_cons_of_length_pos (Nat.zero_lt_of_lt hn)
    obtain ⟨_, s₁, hhead, htail⟩ := Stateful.bind_eq_ok.mp h
    have h₁ := retireHead_inv hq (hfits d (by simp [hq])) hhead
    have hrest : s₁.queue.pending = rest := by rw [h₁.queue]; simp [Queue.after, hq]
    refine h₁.step hq (retire_inv ?_ ?_ htail)
    · rw [hrest]
      rw [hq, List.length_cons] at hn
      omega
    · intro e he
      exact hfits e (by rw [hq]; exact List.mem_cons_of_mem _ (hrest ▸ he))

/-- Retiring finishes when the read counters of all sources have room for the queue. -/
theorem retire_exists : ∀ {n : Nat} {s : Device}, n ≤ s.queue.pending.length →
    (∀ d ∈ s.queue.pending, d.Fits) →
    (∀ d ∈ s.queue.pending,
      s.memory.readCount d.sourceTier + readBytes d.sourceTier s.queue.pending < wordLimit) →
    ∃ s', retire n s = .ok () s'
  | 0, s, _, _, _ => ⟨s, rfl⟩
  | n + 1, s, hn, hfits, hroom => by
    obtain ⟨d, rest, hq⟩ := List.exists_cons_of_length_pos (Nat.zero_lt_of_lt hn)
    rw [hq] at hfits hroom
    have hd := hfits d List.mem_cons_self
    have hsource := hroom d List.mem_cons_self
    rw [readBytes, if_pos rfl] at hsource
    obtain ⟨s₁, hhead⟩ := retireHead_exists hq hd (by omega)
    have h₁ := retireHead_inv hq hd.toAddressed hhead
    have hrest : s₁.queue.pending = rest := by rw [h₁.queue]; simp [Queue.after, hq]
    have hroom₁ : ∀ e ∈ rest,
        s₁.memory.readCount e.sourceTier + readBytes e.sourceTier rest < wordLimit := by
      intro e he
      have := hroom e (List.mem_cons_of_mem d he)
      rw [readBytes] at this
      rw [h₁.reads, hq]
      simp only [List.take_succ_cons, List.take_zero, readBytes]
      omega
    obtain ⟨s', htail⟩ := retire_exists (n := n) (s := s₁)
      (by rw [hrest]; rw [hq, List.length_cons] at hn; omega)
      (by rw [hrest]; exact fun e he => hfits e (List.mem_cons_of_mem d he))
      (by rw [hrest]; exact hroom₁)
    exact ⟨s', by rw [retire, Stateful.bind_of_ok hhead, htail]⟩

end Device

/-! ## Submitting and waiting -/

namespace Queue

/-- How many transfers a submission retires first. -/
def overflow (q : Queue) : Nat := if q.depth ≤ q.inFlight then q.inFlight + 1 - q.depth else 0

/-- The queue after a submission has met it: a full queue counts a stall. -/
def meet (q : Queue) : Queue :=
  { q with stalls := if q.depth ≤ q.inFlight then q.stalls + 1 else q.stalls }

def push (q : Queue) (d : Descriptor) : Queue := { q with
  pending := q.pending ++ [d]
  maxInFlight := max q.maxInFlight (q.inFlight + 1) }

/-- How many transfers waiting for a number retires. -/
def before (q : Queue) (id : Nat) : Nat := min (id + 1 - q.retired) q.inFlight

theorem overflow_le {q : Queue} (h : 0 < q.depth) : q.overflow ≤ q.pending.length := by
  unfold overflow inFlight
  split <;> omega

theorem before_le (q : Queue) (id : Nat) : q.before id ≤ q.pending.length := Nat.min_le_right _ _

theorem nextId_after {q : Queue} {n : Nat} (h : n ≤ q.pending.length) :
    (q.after n).nextId = q.nextId := by
  simp only [nextId, after, List.length_drop]
  omega

end Queue

namespace Device

/-- From `s` to `s'` a transfer has been queued, after room was made for it. -/
structure Submitted (d : Descriptor) (s s' : Device) : Prop where
  queue : s'.queue = (s.queue.meet.after s.queue.overflow).push d
  image : s'.memory.image = s.memory.image.applyAll (s.queue.pending.take s.queue.overflow)
  reads : ∀ t, s'.memory.readCount t =
    s.memory.readCount t + readBytes t (s.queue.pending.take s.queue.overflow)

theorem Submitted.readTotal {d : Descriptor} {s s' : Device} (h : Submitted d s s') (t : Tier) :
    s'.readTotal t = s.readTotal t + readBytes t [d] := by
  unfold Device.readTotal
  rw [h.reads, h.queue]
  simp only [Queue.push, Queue.after, Queue.meet]
  rw [readBytes_append, Nat.add_assoc, ← Nat.add_assoc (readBytes t _), ← readBytes_append,
    List.take_append_drop, Nat.add_assoc]

theorem Submitted.mem_pending {d e : Descriptor} {s s' : Device} (h : Submitted d s s')
    (he : e ∈ s'.queue.pending) : e ∈ s.queue.pending ∨ e = d := by
  rw [h.queue] at he
  rcases List.mem_append.mp he with hold | hnew
  · exact .inl (List.mem_of_mem_drop hold)
  · exact .inr (List.mem_singleton.mp hnew)

/-- A submission retires what overflows and then adds its transfer. -/
theorem submit_eq (d : Descriptor) (s : Device) :
    submit d s = match retire s.queue.overflow ⟨s.memory, s.queue.meet⟩ with
      | .ok () mid => .ok mid.queue.nextId ⟨mid.memory, mid.queue.push d⟩
      | .error e mid => .error e mid := by
  unfold submit Queue.overflow Queue.meet
  by_cases hfull : s.queue.depth ≤ s.queue.inFlight
  · simp only [Stateful.bind_apply, Stateful.get_apply, Stateful.modify_apply, if_pos hfull]
    cases retire (s.queue.inFlight + 1 - s.queue.depth) _ <;> rfl
  · simp only [Stateful.bind_apply, Stateful.get_apply, if_neg hfull]
    rfl

/-- What a finished submission has done; its number is the next one. -/
theorem submit_inv {d : Descriptor} {s s' : Device} {id : Nat} (hdepth : 0 < s.queue.depth)
    (hfits : ∀ e ∈ s.queue.pending, e.Addressed) (h : submit d s = .ok id s') :
    Submitted d s s' ∧ id = s.queue.nextId := by
  have hle := Queue.overflow_le hdepth
  rw [submit_eq] at h
  cases hr : retire s.queue.overflow ⟨s.memory, s.queue.meet⟩ with
  | error e mid => rw [hr] at h; cases h
  | ok u mid =>
    rw [hr] at h
    cases h
    have hmid := retire_inv (s := ⟨s.memory, s.queue.meet⟩) hle hfits hr
    refine ⟨⟨by rw [hmid.queue], hmid.image, hmid.reads⟩, ?_⟩
    rw [hmid.queue, Queue.nextId_after (q := s.queue.meet) hle]
    rfl

theorem submit_exists {d : Descriptor} {s : Device} (hdepth : 0 < s.queue.depth)
    (hfits : ∀ e ∈ s.queue.pending, e.Fits)
    (hroom : ∀ t, s.memory.readCount t + readBytes t s.queue.pending < wordLimit) :
    ∃ id s', submit d s = .ok id s' := by
  obtain ⟨mid, hr⟩ := retire_exists (n := s.queue.overflow) (s := ⟨s.memory, s.queue.meet⟩)
    (Queue.overflow_le hdepth) hfits fun e _ => hroom e.sourceTier
  exact ⟨_, _, by rw [submit_eq, hr]⟩

theorem wait_inv {id : Nat} {s s' : Device} (hfits : ∀ e ∈ s.queue.pending, e.Addressed)
    (h : wait id s = .ok () s') : Retired (s.queue.before id) s s' :=
  retire_inv (s.queue.before_le id) hfits h

theorem wait_exists (id : Nat) {s : Device} (hfits : ∀ e ∈ s.queue.pending, e.Fits)
    (hroom : ∀ t, s.memory.readCount t + readBytes t s.queue.pending < wordLimit) :
    ∃ s', wait id s = .ok () s' :=
  retire_exists (s.queue.before_le id) hfits fun e _ => hroom e.sourceTier

theorem drain_eq (s : Device) : drain s = retire s.queue.pending.length s := rfl

theorem drain_inv {s s' : Device} (hfits : ∀ e ∈ s.queue.pending, e.Addressed)
    (h : drain s = .ok () s') : Retired s.queue.pending.length s s' :=
  retire_inv (Nat.le_refl _) hfits h

theorem drain_exists {s : Device} (hfits : ∀ e ∈ s.queue.pending, e.Fits)
    (hroom : ∀ t, s.memory.readCount t + readBytes t s.queue.pending < wordLimit) :
    ∃ s', drain s = .ok () s' :=
  retire_exists (Nat.le_refl _) hfits fun e _ => hroom e.sourceTier

end Device

end TileStream
