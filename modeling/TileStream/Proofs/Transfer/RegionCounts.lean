import TileStream.Proofs.Memory.Regions
import TileStream.Proofs.Transfer.InOrder

/-! # What the counters of a region count

The recorder of a transfer sees its first address and the number of its bytes.
It counts the transfer on the first registered region that this range overlaps,
wherever the runs lie and however many regions they touch. `Device.Charged`
follows the regions and the queue through a call, and `Device.Advanced` one
region through calls and registrations; by induction over a sequence of these
the counters of a region are the number of retired transfers with such a range
(`region_counts_first_overlap`). For transfers that are packed on the side in
question this is the number of those that touch the region. Where no transfer
overlaps two regions, the regions do not depend on each other
(`foldl_chargeAll_of_single`). -/
namespace TileStream

/-! ## One transfer -/

namespace Descriptor

/-- Where a transfer begins to read or to write. -/
def start (d : Descriptor) : Access → Endpoint
  | .read => match d.direction with
    | .gather => d.ext
    | .scatter => d.loc
  | .write => d.destination

/-- Where a transfer reads or writes byte `p`. -/
def place (d : Descriptor) : Access → Nat → Endpoint
  | .read => d.source
  | .write => d.target

/-- A transfer is counted on region `r` of tier `t`, which was registered after the regions `before`. -/
def countsOn (d : Descriptor) (x : Access) (t : Tier) (before : List Region) (r : Region) : Bool :=
  (d.start x).tier == t && (r.overlaps (d.start x).addr d.byteCount &&
    !before.any (·.overlaps (d.start x).addr d.byteCount))

/-- A transfer reads or writes a byte of region `r` of tier `t`. -/
def touches (d : Descriptor) (x : Access) (t : Tier) (r : Region) : Bool :=
  (List.range d.byteCount).any fun p => (d.place x p).tier == t && r.contains (d.place x p).addr

/-- A transfer of some bytes that lie one after the other on one of its sides. -/
structure PackedOn (d : Descriptor) (x : Access) : Prop where
  moves : 0 < d.byteCount
  place_eq : ∀ p < d.byteCount, d.place x p = ⟨(d.start x).tier, (d.start x).addr + p⟩

variable {d : Descriptor} {x y : Access} {t : Tier} {before : List Region} {r r' : Region}

theorem place_tier (d : Descriptor) (x : Access) (p : Nat) : (d.place x p).tier = (d.start x).tier := by
  cases x with
  | read =>
    simp only [place, start, source]
    cases d.direction <;> rfl
  | write => exact d.target_tier p

theorem countsOn_of_range (h : r.range = r'.range) : d.countsOn x t before r = d.countsOn x t before r' := by
  simp only [countsOn, Region.overlaps_of_range h]

/-- A transfer that meets the tier of a region with one of its sides is packed there, and overlaps no region
before this one if it overlaps this one. -/
def PlainOn (d : Descriptor) (x : Access) (t : Tier) (before : List Region) (r : Region) : Prop :=
  (d.start x).tier = t → d.PackedOn x ∧
    (r.overlaps (d.start x).addr d.byteCount → ¬ before.any (·.overlaps (d.start x).addr d.byteCount))

/-- The region after one access of a transfer. -/
def charge (t : Tier) (before : List Region) (d : Descriptor) (r : Region) (x : Access) : Region :=
  if d.countsOn x t before r then r.count x else r

theorem charge_name (r : Region) (x : Access) : (charge t before d r x).name = r.name := by
  unfold charge
  split <;> simp

theorem charge_range (r : Region) (x : Access) : (charge t before d r x).range = r.range := by
  unfold charge
  split <;> simp

theorem counted_charge (r : Region) (x y : Access) : (charge t before d r x).counted y =
    r.counted y + if x = y ∧ d.countsOn x t before r then 1 else 0 := by
  unfold charge
  split <;> rename_i hcounts
  · simp [Region.counted_count, hcounts]
  · simp [hcounts]

/-- The region after a transfer. -/
def chargeBoth (t : Tier) (before : List Region) (r : Region) (d : Descriptor) : Region :=
  charge t before d (charge t before d r .read) .write

theorem counted_chargeBoth (r : Region) (x : Access) : (chargeBoth t before r d).counted x =
    r.counted x + if d.countsOn x t before r then 1 else 0 := by
  rw [chargeBoth, counted_charge, counted_charge, countsOn_of_range (charge_range r .read)]
  cases x <;> simp

/-- Charging transfers one after the other counts those that are counted on the region. -/
theorem foldl_chargeBoth (t : Tier) (before : List Region) (ds : List Descriptor) (r : Region) :
    (ds.foldl (chargeBoth t before) r).name = r.name ∧
      (ds.foldl (chargeBoth t before) r).range = r.range ∧
      ∀ x, (ds.foldl (chargeBoth t before) r).counted x =
        r.counted x + ds.countP (·.countsOn x t before r) := by
  induction ds generalizing r with
  | nil => exact ⟨rfl, rfl, fun x => rfl⟩
  | cons d ds ih =>
    obtain ⟨hname, hrange, hcounted⟩ := ih (chargeBoth t before r d)
    have hkept : (chargeBoth t before r d).range = r.range := by
      rw [chargeBoth, charge_range, charge_range]
    refine ⟨?_, hrange.trans hkept, fun x => ?_⟩
    · rw [List.foldl_cons, hname, chargeBoth, charge_name, charge_name]
    · have hsame : (fun e : Descriptor => e.countsOn x t before (chargeBoth t before r d)) =
          (fun e => e.countsOn x t before r) := funext fun e => countsOn_of_range hkept
      rw [List.foldl_cons, hcounted, hsame, counted_chargeBoth, List.countP_cons]
      omega

/-- Charging transfers one after the other adds up what each access is counted. -/
theorem foldl_chargeBoth_eq (t : Tier) (before : List Region) (ds : List Descriptor)
    (r : Region) : ds.foldl (chargeBoth t before) r = { r with
      reads := r.reads + ds.countP (·.countsOn .read t before r)
      writes := r.writes + ds.countP (·.countsOn .write t before r) } := by
  obtain ⟨hname, hrange, hcounted⟩ := foldl_chargeBoth t before ds r
  have hreads := hcounted .read
  have hwrites := hcounted .write
  generalize ds.foldl (chargeBoth t before) r = r' at *
  obtain ⟨name, base, size, reads, writes⟩ := r'
  obtain ⟨hbase, hsize⟩ := Prod.mk.inj hrange
  subst hname hbase hsize hreads hwrites
  rfl

end Descriptor

/-! ## What a move does to the regions -/

/-- Visiting runs keeps what every visit keeps. -/
theorem RunCursor.visit_keeps {σ α : Type} {P : σ → Prop} {f : α → Nat → Stateful σ α}
    (hf : ∀ {a addr s c s'}, f a addr s = .ok c s' → P s → P s') :
    ∀ {n : Nat} {cursor : RunCursor} {a c : α} {s s' : σ},
      (cursor.visit f n a : Stateful σ α) s = .ok c s' → P s → P s'
  | 0, _, _, _, _, _, h, hs => by
    cases h
    exact hs
  | n + 1, cursor, a, c, s, s', h, hs => by
    obtain ⟨found, -, h⟩ := Stateful.lift_bind_eq_ok.mp h
    cases found with
    | none =>
      cases h
      exact hs
    | some found =>
      obtain ⟨a', s₁, hvisit, hrest⟩ := Stateful.bind_eq_ok.mp h
      exact RunCursor.visit_keeps hf hrest (hf hvisit hs)

namespace Bank

variable {b b' : Bank}

theorem write_regions {addr : Nat} {data : List UInt8} (h : write addr data b = .ok () b') :
    b'.regions = b.regions := by
  unfold write at h
  split at h
  · cases h
  · cases h
    rfl

theorem countRead_regions {addr len : Nat} (h : countRead addr len b = .ok () b') :
    b'.regions = Region.touchFirst (·.count .read) addr len b.regions := by
  unfold countRead at h
  split at h
  · cases h
  · cases h
    rfl

theorem scatter_regions {base : Nat} {shape : Shape} {packed : Array UInt8}
    (h : scatter base shape packed b = .ok () b') : b'.regions = b.regions := by
  obtain ⟨last, hvisit⟩ := Stateful.discard_eq_ok.mp h
  refine RunCursor.visit_keeps (P := fun c => c.regions = b.regions) (fun hrun hkept => ?_) hvisit rfl
  obtain ⟨_, s₁, hwrite, hret⟩ := Stateful.bind_eq_ok.mp hrun
  cases hret
  exact (write_regions hwrite).trans hkept

end Bank

namespace Memory

variable {m m' : Memory} {t u : Tier}

/-- A computation on one bank that applies `f` to its regions. -/
theorem onBank_regions {x : Stateful Bank Unit} {f : List Region → List Region}
    (hf : ∀ {b b'}, x b = .ok () b' → b'.regions = f b.regions) (h : onBank t x m = .ok () m')
    (u : Tier) : (m'.bank u).regions = if t = u then f (m.bank u).regions else (m.bank u).regions := by
  obtain ⟨b, hx, rfl⟩ := onBank_inv h
  rw [bank_withBank]
  by_cases hu : u = t
  · rw [if_pos hu, if_pos hu.symm, hf hx, hu]
  · rw [if_neg hu, if_neg (Ne.symm hu)]

theorem onBank_keeps_regions {x : Stateful Bank Unit}
    (hx : ∀ {b b'}, x b = .ok () b' → b'.regions = b.regions) (h : onBank t x m = .ok () m')
    (u : Tier) : (m'.bank u).regions = (m.bank u).regions := by
  rw [onBank_regions (f := id) hx h, id, ite_self]

theorem countWrite_regions {addr len : Nat} (h : update t (·.countWrite addr len) m = .ok () m')
    (u : Tier) : (m'.bank u).regions =
      if t = u then Region.touchFirst (·.count .write) addr len (m.bank u).regions
      else (m.bank u).regions := by
  refine onBank_regions (fun hx => ?_) h u
  cases hx
  rfl

end Memory

namespace Descriptor

variable {d : Descriptor} {m m' : Memory} {t : Tier} {before : List Region} {r : Region}

/-- The regions of a tier after one access of a transfer. -/
def chargeFirst (t : Tier) (d : Descriptor) (rs : List Region) (x : Access) : List Region :=
  if (d.start x).tier = t then
    Region.touchFirst (·.count x) (d.start x).addr d.byteCount rs
  else rs

/-- The regions of a tier after a transfer: it is counted for its read and then for its write, on one
region at most each. -/
def chargeAll (t : Tier) (rs : List Region) (d : Descriptor) : List Region :=
  chargeFirst t d (chargeFirst t d rs .read) .write

theorem move_regions (h : d.move m = .ok () m') (t : Tier) :
    (m'.bank t).regions = chargeAll t (m.bank t).regions d := by
  unfold move at h
  obtain ⟨total, htotal, h⟩ := Stateful.lift_bind_eq_ok.mp h
  obtain ⟨-, rfl⟩ := Shape.totalBytes_eq_ok_iff.mp htotal
  cases hdir : d.direction with
  | gather =>
    simp only [hdir] at h
    obtain ⟨_, -, h⟩ := Stateful.lift_bind_eq_ok.mp h
    obtain ⟨packed, m₁, hlook, h⟩ := Stateful.bind_eq_ok.mp h
    obtain ⟨_, m₂, hread, h⟩ := Stateful.bind_eq_ok.mp h
    obtain ⟨_, m₃, hwrite, hcount⟩ := Stateful.bind_eq_ok.mp h
    obtain ⟨-, rfl⟩ := Memory.look_inv hlook
    rw [Memory.countWrite_regions hcount, Memory.onBank_keeps_regions Bank.write_regions hwrite,
      Memory.onBank_regions Bank.countRead_regions hread]
    simp only [chargeAll, chargeFirst, start, destination, hdir]
    rfl
  | scatter =>
    simp only [hdir] at h
    obtain ⟨_, m₁, hread, h⟩ := Stateful.bind_eq_ok.mp h
    obtain ⟨packed, m₂, hlook, h⟩ := Stateful.bind_eq_ok.mp h
    obtain ⟨_, m₃, hwrite, hcount⟩ := Stateful.bind_eq_ok.mp h
    obtain ⟨-, rfl⟩ := Memory.look_inv hlook
    rw [Memory.countWrite_regions hcount, Memory.onBank_keeps_regions Bank.scatter_regions hwrite,
      Memory.onBank_regions Bank.countRead_regions hread]
    simp only [chargeAll, chargeFirst, start, destination, hdir]
    rfl

theorem stands_chargeFirst {rs : List Region} (h : Region.Stands before r rs) (x : Access) :
    Region.Stands before (charge t before d r x) (chargeFirst t d rs x) := by
  unfold charge countsOn chargeFirst
  by_cases htier : (d.start x).tier = t
  · have hcharged := h.touchFirst x (d.start x).addr d.byteCount
    simpa only [htier, beq_self_eq_true, Bool.true_and, if_true] using hcharged
  · simpa only [beq_eq_false_iff_ne.mpr htier, Bool.false_and, Bool.false_eq_true, htier,
      if_false] using h

theorem stands_chargeAll {rs : List Region} (h : Region.Stands before r rs) (ds : List Descriptor) :
    Region.Stands before (ds.foldl (chargeBoth t before) r) (ds.foldl (chargeAll t) rs) := by
  induction ds generalizing r rs with
  | nil => exact h
  | cons d ds ih => exact ih (stands_chargeFirst (stands_chargeFirst h .read) .write)

/-- A transfer overlaps one region at most with each of its sides. -/
def Single (t : Tier) (rs : List Region) (d : Descriptor) : Prop :=
  ∀ x, (d.start x).tier = t → rs.Pairwise fun r r' =>
    r.overlaps (d.start x).addr d.byteCount → ¬ r'.overlaps (d.start x).addr d.byteCount

theorem single_map {rs : List Region} {f : Region → Region} (hf : ∀ r, (f r).range = r.range) :
    d.Single t (rs.map f) ↔ d.Single t rs := by
  have hsame : ∀ r addr len, (f r).overlaps addr len = r.overlaps addr len :=
    fun r addr len => Region.overlaps_of_range (hf r)
  simp only [Single, List.pairwise_map, hsame]

theorem chargeFirst_of_single {rs : List Region} (h : d.Single t rs) (x : Access) :
    chargeFirst t d rs x = rs.map fun r => charge t [] d r x := by
  unfold charge countsOn chargeFirst
  by_cases htier : (d.start x).tier = t
  · have hfirst := Region.touchFirst_of_apart (·.count x) (h x htier)
    simpa [htier] using hfirst
  · simp [htier]

theorem chargeAll_of_single {rs : List Region} (h : d.Single t rs) :
    chargeAll t rs d = rs.map fun r => chargeBoth t [] r d := by
  have hread : d.Single t (rs.map fun r => charge t [] d r .read) :=
    (single_map fun r => charge_range r .read).mpr h
  rw [chargeAll, chargeFirst_of_single h, chargeFirst_of_single hread, List.map_map]
  rfl

/-- Where no transfer overlaps two regions, each region counts for itself. -/
theorem foldl_chargeAll_of_single {ds : List Descriptor} {rs : List Region}
    (h : ∀ d ∈ ds, d.Single t rs) :
    ds.foldl (chargeAll t) rs = rs.map fun r => ds.foldl (chargeBoth t []) r := by
  induction ds generalizing rs with
  | nil => exact (List.map_id rs).symm
  | cons d ds ih =>
    have hkept : ∀ r, (chargeBoth t [] r d).range = r.range :=
      fun r => (charge_range _ .write).trans (charge_range r .read)
    rw [List.foldl_cons, chargeAll_of_single (h d List.mem_cons_self),
      ih fun e he => (single_map hkept).mpr (h e (List.mem_cons_of_mem d he)), List.map_map]
    rfl

end Descriptor

/-! ## Calls and registrations -/

/-- From `s` to `s'` the transfers `gone` have retired, in order, the transfers `added` have been queued,
and nothing else has happened to the regions. -/
structure Device.Charged (gone added : List Descriptor) (s s' : Device) : Prop where
  pending : s.queue.pending ++ added = gone ++ s'.queue.pending
  retired : s'.queue.retired = s.queue.retired + gone.length
  regions : ∀ t, (s'.memory.bank t).regions =
    gone.foldl (Descriptor.chargeAll t) (s.memory.bank t).regions

/-- The same, with regions that have been registered on the way. -/
structure Device.Advanced (gone added : List Descriptor) (s s' : Device) : Prop where
  pending : s.queue.pending ++ added = gone ++ s'.queue.pending
  retired : s'.queue.retired = s.queue.retired + gone.length
  regions : ∀ {t before r}, Region.Stands before r (s.memory.bank t).regions →
    Region.Stands before (gone.foldl (Descriptor.chargeBoth t before) r) (s'.memory.bank t).regions

namespace Device

variable {s s₁ s' : Device} {gone gone' added added' : List Descriptor} {d : Descriptor}

/-- A step that leaves the queue and the regions alone. -/
theorem Charged.of_kept (hpending : s'.queue.pending = s.queue.pending)
    (hretired : s'.queue.retired = s.queue.retired)
    (hregions : ∀ t, (s'.memory.bank t).regions = (s.memory.bank t).regions) : Charged [] [] s s' :=
  ⟨by simp [hpending], hretired, hregions⟩

theorem Charged.refl (s : Device) : Charged [] [] s s := .of_kept rfl rfl fun _ => rfl

theorem Charged.trans (h : Charged gone added s s₁) (h' : Charged gone' added' s₁ s') :
    Charged (gone ++ gone') (added ++ added') s s' := by
  refine ⟨?_, ?_, fun t => ?_⟩
  · rw [← List.append_assoc, h.pending, List.append_assoc, h'.pending, List.append_assoc]
  · rw [h'.retired, h.retired, List.length_append, Nat.add_assoc]
  · rw [h'.regions, h.regions, List.foldl_append]

theorem Charged.advanced (h : Charged gone added s s') : Advanced gone added s s' := by
  refine ⟨h.pending, h.retired, fun {t before r} hstands => ?_⟩
  rw [h.regions]
  exact Descriptor.stands_chargeAll hstands gone

theorem Advanced.refl (s : Device) : Advanced [] [] s s := (Charged.refl s).advanced

theorem Advanced.trans (h : Advanced gone added s s₁) (h' : Advanced gone' added' s₁ s') :
    Advanced (gone ++ gone') (added ++ added') s s' := by
  refine ⟨?_, ?_, fun hstands => ?_⟩
  · rw [← List.append_assoc, h.pending, List.append_assoc, h'.pending, List.append_assoc]
  · rw [h'.retired, h.retired, List.length_append, Nat.add_assoc]
  · rw [List.foldl_append]
    exact h'.regions (h.regions hstands)

/-- What has retired is what was queued first. -/
theorem Advanced.gone_eq (h : Advanced gone added s s') :
    gone = (s.queue.pending ++ added).take (s'.queue.retired - s.queue.retired) := by
  rw [h.retired, Nat.add_sub_cancel_left, h.pending, List.take_left]

theorem charged_retireHead (h : retireHead s = .ok () s') : ∃ gone, Charged gone [] s s' := by
  obtain ⟨memory, queue⟩ := s
  unfold retireHead at h
  cases hq : queue.pending with
  | nil =>
    simp only [hq] at h
    cases h
    exact ⟨[], .refl _⟩
  | cons d rest =>
    simp only [hq] at h
    cases hmove : d.move memory with
    | error f m => rw [hmove] at h; cases h
    | ok u m =>
      rw [hmove] at h
      cases h
      exact ⟨[d], by simp [hq], rfl, Descriptor.move_regions hmove⟩

theorem charged_retire : ∀ {n : Nat} {s s' : Device}, retire n s = .ok () s' →
    ∃ gone, Charged gone [] s s'
  | 0, s, s', h => by
    cases h
    exact ⟨[], .refl _⟩
  | n + 1, s, s', h => by
    obtain ⟨_, s₁, hhead, htail⟩ := Stateful.bind_eq_ok.mp h
    obtain ⟨first, h₁⟩ := charged_retireHead hhead
    obtain ⟨rest, h₂⟩ := charged_retire htail
    exact ⟨first ++ rest, h₁.trans h₂⟩

theorem charged_submit {id : Nat} (h : submit d s = .ok id s') : ∃ gone, Charged gone [d] s s' := by
  rw [submit_eq] at h
  cases hretire : retire s.queue.overflow ⟨s.memory, s.queue.meet⟩ with
  | error f mid => rw [hretire] at h; cases h
  | ok u mid =>
    rw [hretire] at h
    cases h
    obtain ⟨gone, hmid⟩ := charged_retire hretire
    refine ⟨gone, ?_, hmid.retired, hmid.regions⟩
    have hpending : s.queue.pending ++ [] = gone ++ mid.queue.pending := hmid.pending
    rw [List.append_nil] at hpending
    show s.queue.pending ++ [d] = gone ++ (mid.queue.pending ++ [d])
    rw [hpending, List.append_assoc]

end Device

/-- Register a region in a tier. -/
def Device.register (t : Tier) (name : String) (base size : Nat) :
    Stateful Device (Except RegionError Unit) :=
  Device.onMemory (Memory.onBank t (Bank.allocate name base size))

theorem Device.register_inv {s s' : Device} {t : Tier} {name : String} {base size : Nat}
    {r : Except RegionError Unit} (h : Device.register t name base size s = .ok r s') :
    ∃ b, Bank.allocate name base size (s.memory.bank t) = .ok r b ∧
      s' = ⟨s.memory.withBank t b, s.queue⟩ := by
  obtain ⟨m, hm, rfl⟩ := Device.onMemory_inv h
  obtain ⟨b, hallocate, rfl⟩ := Memory.onBank_inv hm
  exact ⟨b, hallocate, rfl⟩

/-- Registering a region, granted or refused, leaves every region of before in its place. -/
theorem Device.advanced_register {s s' : Device} {t : Tier} {name : String} {base size : Nat}
    {r : Except RegionError Unit} (h : Device.register t name base size s = .ok r s') :
    Advanced [] [] s s' := by
  obtain ⟨b, hallocate, rfl⟩ := register_inv h
  obtain ⟨more, rfl⟩ := Bank.allocate_inv hallocate
  refine ⟨List.append_nil _, rfl, fun {u before r} hstands => ?_⟩
  rw [Memory.bank_withBank]
  split
  · rename_i hu
    rw [hu] at hstands
    exact hstands.append _
  · exact hstands

/-- A call to the engine or the memory, or the registration of a region. -/
inductive DeviceEvent where
  | call (c : EngineCall)
  | register (t : Tier) (name : String) (base size : Nat)

namespace DeviceEvent

def perform : DeviceEvent → Stateful Device Unit
  | call c => discard c.perform
  | register t name base size => discard (Device.register t name base size)

def performAll : List DeviceEvent → Stateful Device Unit
  | [] => pure ()
  | e :: es => do
    e.perform
    performAll es

def transfers : DeviceEvent → List Descriptor
  | call c => c.transfers
  | register .. => []

/-- What is seen of a device after some events, if they finish. -/
def observe {α : Type} (see : Device → α) (events : List DeviceEvent) (s : Device) : Option α :=
  match performAll events s with
  | .ok () s' => some (see s')
  | .error _ _ => none

theorem exists_of_observe {α : Type} {see : Device → α} {events : List DeviceEvent} {s : Device} {a : α}
    (h : observe see events s = some a) : ∃ s', performAll events s = .ok () s' ∧ see s' = a := by
  unfold observe at h
  split at h
  · rename_i s' hrun
    exact ⟨s', hrun, Option.some.inj h⟩
  · cases h

end DeviceEvent

variable {s s' : Device}

theorem charged_call {c : EngineCall} {answer : EngineAnswer} (h : c.perform s = .ok answer s') :
    ∃ gone, Device.Charged gone c.transfers s s' := by
  cases c with
  | submit d =>
    obtain ⟨id, s₁, hsubmit, hret⟩ := Stateful.bind_eq_ok.mp h
    cases hret
    exact Device.charged_submit hsubmit
  | submitAndWait d =>
    obtain ⟨_, s₂, hboth, hret⟩ := Stateful.bind_eq_ok.mp h
    cases hret
    obtain ⟨id, s₁, hsubmit, hwait⟩ := Stateful.bind_eq_ok.mp hboth
    obtain ⟨first, h₁⟩ := Device.charged_submit hsubmit
    obtain ⟨rest, h₂⟩ := Device.charged_retire hwait
    exact ⟨first ++ rest, h₁.trans h₂⟩
  | wait id =>
    obtain ⟨_, s₁, hwait, hret⟩ := Stateful.bind_eq_ok.mp h
    cases hret
    exact Device.charged_retire hwait
  | isComplete id =>
    cases h
    exact ⟨[], .refl _⟩
  | drain =>
    obtain ⟨_, s₁, hdrain, hret⟩ := Stateful.bind_eq_ok.mp h
    cases hret
    exact Device.charged_retire hdrain
  | write t addr data =>
    obtain ⟨_, s₁, hwrite, hret⟩ := Stateful.bind_eq_ok.mp h
    cases hret
    obtain ⟨m, hm, rfl⟩ := Device.onMemory_inv hwrite
    exact ⟨[], .of_kept rfl rfl (Memory.onBank_keeps_regions Bank.write_regions hm)⟩
  | read t addr len =>
    obtain ⟨bytes, s₁, hread, hret⟩ := Stateful.bind_eq_ok.mp h
    cases hret
    obtain ⟨m, hm, rfl⟩ := Device.onMemory_inv hread
    obtain ⟨-, rfl⟩ := Memory.look_inv hm
    exact ⟨[], .refl _⟩

theorem advanced_perform {e : DeviceEvent} (h : e.perform s = .ok () s') :
    ∃ gone, Device.Advanced gone e.transfers s s' := by
  cases e with
  | call c =>
    obtain ⟨answer, hcall⟩ := Stateful.discard_eq_ok.mp h
    obtain ⟨gone, hcharged⟩ := charged_call hcall
    exact ⟨gone, hcharged.advanced⟩
  | register t name base size =>
    obtain ⟨r, hregister⟩ := Stateful.discard_eq_ok.mp h
    exact ⟨[], Device.advanced_register hregister⟩

/-- The same for calls and registrations one after the other. -/
theorem advanced_performAll : ∀ {events : List DeviceEvent} {s s' : Device},
    DeviceEvent.performAll events s = .ok () s' →
      ∃ gone, Device.Advanced gone (events.flatMap (·.transfers)) s s'
  | [], s, s', h => by
    cases h
    exact ⟨[], .refl _⟩
  | e :: es, s, s', h => by
    obtain ⟨_, s₁, hfirst, hrest⟩ := Stateful.bind_eq_ok.mp h
    obtain ⟨first, h₁⟩ := advanced_perform hfirst
    obtain ⟨rest, h₂⟩ := advanced_performAll hrest
    exact ⟨first ++ rest, h₁.trans h₂⟩

/-! ## The counters -/

/-- A transfer that is plain on a region that holds an address is counted exactly if it touches the region. -/
theorem Descriptor.countsOn_eq_touches {d : Descriptor} {x : Access} {t : Tier} {before : List Region}
    {r : Region} (hr : r.base < r.stop) (h : d.PlainOn x t before r) :
    d.countsOn x t before r = d.touches x t r := by
  by_cases htier : (d.start x).tier = t
  · obtain ⟨hpacked, hfirst⟩ := h htier
    have htouches : d.touches x t r = r.overlaps (d.start x).addr d.byteCount := by
      rw [Bool.eq_iff_iff, Region.overlaps_iff_contains hr hpacked.moves]
      simp only [touches, List.any_eq_true, List.mem_range, Bool.and_eq_true, place_tier, htier,
        beq_self_eq_true, true_and]
      refine exists_congr fun p => and_congr_right fun hp => ?_
      rw [hpacked.place_eq p hp]
    rw [htouches, countsOn, htier, beq_self_eq_true, Bool.true_and]
    cases hoverlaps : r.overlaps (d.start x).addr d.byteCount with
    | false => rfl
    | true => simpa using hfirst hoverlaps
  · have hcounts : d.countsOn x t before r = false := by
      rw [countsOn, beq_eq_false_iff_ne.mpr htier, Bool.false_and]
    have htouches : d.touches x t r = false := by
      simp only [touches, place_tier, beq_eq_false_iff_ne.mpr htier, Bool.false_and]
      simp
    rw [hcounts, htouches]

/-- The transfers that have retired between two states: those that were queued or that the events have
queued, up to the number that has been reached. -/
def Device.retiredSince (s : Device) (events : List DeviceEvent) (s' : Device) : List Descriptor :=
  (s.queue.pending ++ events.flatMap (·.transfers)).take (s'.queue.retired - s.queue.retired)

/-- **What the counters of a region count.** However the engine is called after a region has been
registered, and whatever else is registered, its counters are the numbers of retired transfers whose bytes,
laid out from the first address on, overlap it and no region before it. If it holds an address and every
retired transfer is plain on it, these are the transfers that touch it. -/
theorem region_counts_first_overlap {s s' : Device} {t : Tier} {name : String} {base size : Nat}
    {b : Bank} {events : List DeviceEvent}
    (hregister : Bank.allocate name base size (s.memory.bank t) = .ok (.ok ()) b)
    (hrun : DeviceEvent.performAll (.register t name base size :: events) s = .ok () s') :
    ∃ r, (s'.memory.bank t).regions[(s.memory.bank t).regions.length]? = some r ∧
      r.name = name ∧ r.base = base ∧ r.size = size ∧ ∀ x,
        r.counted x =
          (s.retiredSince events s').countP (·.countsOn x t (s.memory.bank t).regions r) ∧
        (base < r.stop → (∀ d ∈ s.retiredSince events s', d.PlainOn x t (s.memory.bank t).regions r) →
          r.counted x = (s.retiredSince events s').countP (·.touches x t r)) := by
  obtain ⟨_, s₁, hfirst, hrest⟩ := Stateful.bind_eq_ok.mp hrun
  obtain ⟨_, hfirst⟩ := Stateful.discard_eq_ok.mp hfirst
  obtain ⟨_, hallocate, rfl⟩ := Device.register_inv hfirst
  cases hregister.symm.trans hallocate
  obtain ⟨gone, hadvanced⟩ := advanced_performAll hrest
  have hgone : s.retiredSince events s' = gone := hadvanced.gone_eq.symm
  have hstands : Region.Stands (s.memory.bank t).regions (.fresh name base size)
      ((s.memory.withBank t b).bank t).regions := by
    rw [Memory.bank_withBank, if_pos rfl, Bank.allocate_ok_inv hregister]
    exact Region.stands_append _ _
  have hcharged := Descriptor.foldl_chargeBoth t (s.memory.bank t).regions gone
    (.fresh name base size)
  have hstands := hadvanced.regions hstands
  generalize gone.foldl _ (Region.fresh name base size) = r at hcharged hstands
  obtain ⟨hname, hrange, hcounted⟩ := hcharged
  obtain ⟨hbase, hsize⟩ := Prod.mk.inj hrange
  have hcounts : ∀ x, r.counted x =
      gone.countP (·.countsOn x t (s.memory.bank t).regions r) := by
    intro x
    have hfresh : (Region.fresh name base size).counted x = 0 := by cases x <;> rfl
    rw [hcounted, hfresh, Nat.zero_add]
    exact List.countP_congr fun d _ => by rw [Descriptor.countsOn_of_range hrange]
  refine ⟨r, hstands.getElem?, hname, hbase, hsize, fun x => ⟨by rw [hgone, hcounts], ?_⟩⟩
  intro hsome hpacked
  rw [hgone] at hpacked ⊢
  rw [hcounts]
  refine List.countP_congr fun d hd => ?_
  rw [Descriptor.countsOn_eq_touches (hbase ▸ hsome) (hpacked d hd)]

/-- Two runs of four bytes, sixteen bytes apart. -/
def distantRuns : Descriptor :=
  ⟨.input, .gather, ⟨.mid, 0⟩, ⟨.scratchpad, 0⟩, ⟨4, ⟨2, 16⟩, ⟨1, 0⟩⟩⟩

/-- The packed side of the transfer fills a region, and is counted on it. -/
theorem region_counts_first_overlap_slot : ∃ s r,
    DeviceEvent.performAll [.register .scratchpad "slot" 0 8, .call (.submitAndWait distantRuns)]
      ⟨.empty 64, .ofDepth 1⟩ = .ok () s ∧
    (s.memory.bank .scratchpad).regions[0]? = some r ∧ r.counted .write = 1 := by
  have hseen : DeviceEvent.observe (·.queue.retired)
      [.register .scratchpad "slot" 0 8, .call (.submitAndWait distantRuns)]
      ⟨.empty 64, .ofDepth 1⟩ = some 1 := by decide +kernel
  obtain ⟨s, hrun, hretired⟩ := DeviceEvent.exists_of_observe hseen
  have hregister : Bank.allocate "slot" 0 8 ((Memory.empty 64).bank .scratchpad) =
      .ok (.ok ()) { Bank.empty .scratchpad (some 64) with regions := [.fresh "slot" 0 8] } := rfl
  obtain ⟨⟨name, base, size, reads, writes⟩, hr, -, hbase, hsize, hcounts⟩ :=
    region_counts_first_overlap hregister hrun
  cases hbase
  cases hsize
  refine ⟨s, _, hrun, hr, ?_⟩
  have hsince : Device.retiredSince ⟨.empty 64, .ofDepth 1⟩ [.call (.submitAndWait distantRuns)] s =
      [distantRuns] := by
    rw [Device.retiredSince, hretired]
    rfl
  have hpacked : distantRuns.PackedOn .write := ⟨by decide, fun p _ => rfl⟩
  obtain ⟨-, htouched⟩ := hcounts .write
  rw [hsince] at htouched
  have hstop : 0 < Unsigned.addSat 0 8 := by decide
  refine htouched hstop fun d hd _ => ?_
  rw [List.mem_singleton.mp hd]
  exact ⟨hpacked, fun _ => nofun⟩

/-- The transfer is counted on a region between its two runs, and not on the one that its second run
reads. -/
theorem distantRuns_counted_on_gap : ∃ s,
    DeviceEvent.performAll
      [.register .mid "gap" 4 4, .register .mid "far" 16 4, .call (.submitAndWait distantRuns)]
      ⟨.empty 64, .ofDepth 1⟩ = .ok () s ∧
    (s.memory.bank .mid).regions = [⟨"gap", 4, 4, 1, 0⟩, ⟨"far", 16, 4, 0, 0⟩] ∧
    distantRuns.touches .read .mid (.fresh "gap" 4 4) = false ∧
    distantRuns.touches .read .mid (.fresh "far" 16 4) = true := by
  have hseen : DeviceEvent.observe (fun s => (s.memory.bank .mid).regions)
      [.register .mid "gap" 4 4, .register .mid "far" 16 4, .call (.submitAndWait distantRuns)]
      ⟨.empty 64, .ofDepth 1⟩ = some [⟨"gap", 4, 4, 1, 0⟩, ⟨"far", 16, 4, 0, 0⟩] := by
    decide +kernel
  obtain ⟨s, hrun, hregions⟩ := DeviceEvent.exists_of_observe hseen
  exact ⟨s, hrun, hregions, by decide, by decide⟩

end TileStream
