import TileStream.Proofs.Transfer.Shares

/-! # Gathering, scattering and back

Retiring a transfer moves the bytes of its runs and nothing else (`Gathered`,
`Scattered`), whether or not its two sides overlap: every byte is read before
the first one is written. So gathering undoes scattering, if no byte belongs to
two runs, and scattering what was gathered changes no run. -/
namespace TileStream

open Checked

/-- Packed byte `j * runBytes + b` is what byte `b` of run `j` was, and no other byte has changed. -/
structure Gathered (d : Descriptor) (starts : List Nat) (img img' : Image) : Prop where
  packed : ∀ (j : Nat) (hj : j < starts.length) (b : Nat), b < d.shape.runBytes →
    img' ⟨d.loc.tier, d.loc.addr + (j * d.shape.runBytes + b)⟩ = img ⟨d.ext.tier, starts[j] + b⟩
  kept : ∀ e, (∀ j < starts.length, ∀ b < d.shape.runBytes,
    e ≠ ⟨d.loc.tier, d.loc.addr + (j * d.shape.runBytes + b)⟩) → img' e = img e

/-- Byte `b` of run `j` is what packed byte `j * runBytes + b` was, unless a later run has written over it,
and no byte outside the runs has changed. -/
structure Scattered (d : Descriptor) (starts : List Nat) (img img' : Image) : Prop where
  runs : ∀ (j : Nat) (hj : j < starts.length) (b : Nat), b < d.shape.runBytes →
    (∀ (k : Nat) (hk : k < starts.length), j < k →
      ¬ (starts[k] ≤ starts[j] + b ∧ starts[j] + b < starts[k] + d.shape.runBytes)) →
    img' ⟨d.ext.tier, starts[j] + b⟩ = img ⟨d.loc.tier, d.loc.addr + (j * d.shape.runBytes + b)⟩
  kept : ∀ e, (∀ (j : Nat) (hj : j < starts.length), ∀ b < d.shape.runBytes,
    e ≠ ⟨d.ext.tier, starts[j] + b⟩) → img' e = img e

/-- No byte belongs to two of the runs that begin at some addresses. -/
def RunsApart (runBytes : Nat) (starts : List Nat) : Prop :=
  starts.Pairwise fun a a' => ∀ b < runBytes, ∀ b' < runBytes, a + b ≠ a' + b'

/-- No later run writes over a byte. -/
theorem RunsApart.not_covered {runBytes : Nat} {starts : List Nat} (h : RunsApart runBytes starts)
    {j k b : Nat} (hj : j < starts.length) (hk : k < starts.length) (hjk : j < k) (hb : b < runBytes) :
    ¬ (starts[k] ≤ starts[j] + b ∧ starts[j] + b < starts[k] + runBytes) := by
  rintro ⟨hlo, hhi⟩
  have hne := List.pairwise_iff_getElem.mp h j k hj hk hjk b hb (starts[j] + b - starts[k]) (by omega)
  omega

namespace Descriptor

variable {d : Descriptor}

/-- Where every run starts. -/
def starts (d : Descriptor) : List Nat := (List.range d.shape.runs).map (d.shape.runAt d.ext.addr)

theorem length_starts (d : Descriptor) : d.starts.length = d.shape.runs := by
  simp [starts]

theorem getElem_starts {j : Nat} (hj : j < d.starts.length) :
    d.starts[j] = d.shape.runAt d.ext.addr j := by
  simp [starts]

theorem Addressed.runStarts_eq (h : d.Addressed) : d.runStarts = .ok d.starts := by
  have hends : Ends (fun _ => False) (· = d.starts) d.runStarts := by
    rw [runStarts, RunCursor.start_eq, starts, List.range_eq_range']
    exact RunCursor.take_map_ends (fun j hj => .of_ok (h.runs.address hj) rfl)
      (Nat.le_of_eq (Nat.zero_add _))
  obtain ⟨_, hok, rfl⟩ := hends.ok_of_never fun _ => id
  exact hok

/-- Every byte of a transfer is a byte of some run. -/
theorem exists_run {p : Nat} (hp : p < d.byteCount) :
    ∃ j < d.starts.length, ∃ b < d.shape.runBytes, p = j * d.shape.runBytes + b := by
  have hrun : 0 < d.shape.runBytes := Nat.pos_of_mul_pos_right (Nat.zero_lt_of_lt hp)
  have hsplit := Nat.div_add_mod p d.shape.runBytes
  rw [Nat.mul_comm] at hsplit
  refine ⟨p / d.shape.runBytes, ?_, p % d.shape.runBytes, Nat.mod_lt _ hrun, hsplit.symm⟩
  rw [length_starts]
  exact Nat.div_lt_of_lt_mul hp

theorem run_lt {j b : Nat} (hj : j < d.starts.length) (hb : b < d.shape.runBytes) :
    j * d.shape.runBytes + b < d.byteCount := by
  rw [length_starts] at hj
  have hle := Nat.mul_le_mul_right d.shape.runBytes (Nat.succ_le_of_lt hj)
  rw [Nat.succ_mul] at hle
  rw [byteCount, Shape.byteCount, Nat.mul_comm d.shape.runBytes]
  omega

theorem strided_run {j b : Nat} (hj : j < d.starts.length) (hb : b < d.shape.runBytes) :
    d.shape.byteAddress d.ext.addr (j * d.shape.runBytes + b) = d.starts[j] + b := by
  rw [getElem_starts, Shape.byteAddress_run _ _ _ _ hb]

theorem gathered_apply (hdir : d.direction = .gather) (img : Image) :
    Gathered d d.starts img (d.apply img) := by
  refine ⟨fun j hj b hb => ?_, fun e he => ?_⟩
  · have htarget : d.target (j * d.shape.runBytes + b) =
        ⟨d.loc.tier, d.loc.addr + (j * d.shape.runBytes + b)⟩ := by
      simp only [target, hdir]
    have hsource : d.source (j * d.shape.runBytes + b) = ⟨d.ext.tier, d.starts[j] + b⟩ := by
      simp only [source, hdir, strided_run hj hb]
    rw [← htarget, ← hsource]
    refine Image.spread_of_last (run_lt hj hb) fun q hq _ heq => ?_
    simp only [target, hdir, Endpoint.mk.injEq, true_and] at heq
    omega
  · refine Image.apply_of_untouched img fun p hp => ?_
    obtain ⟨j, hj, b, hb, rfl⟩ := exists_run hp
    simp only [target, hdir]
    exact (he j hj b hb).symm

theorem scattered_apply (hdir : d.direction = .scatter) (img : Image) :
    Scattered d d.starts img (d.apply img) := by
  have htarget : ∀ {j b : Nat} (hj : j < d.starts.length), b < d.shape.runBytes →
      d.target (j * d.shape.runBytes + b) = ⟨d.ext.tier, d.starts[j] + b⟩ := by
    intro j b hj hb
    simp only [target, hdir, strided_run hj hb]
  refine ⟨fun j hj b hb hlast => ?_, fun e he => ?_⟩
  · have hsource : d.source (j * d.shape.runBytes + b) =
        ⟨d.loc.tier, d.loc.addr + (j * d.shape.runBytes + b)⟩ := by
      simp only [source, hdir]
    rw [← htarget hj hb, ← hsource]
    refine Image.spread_of_last (run_lt hj hb) fun q hq hlt heq => ?_
    -- a later byte for the same address belongs to a later run
    obtain ⟨k, hk, b', hb', rfl⟩ := exists_run hlt
    rw [htarget hk hb', htarget hj hb] at heq
    have haddr : d.starts[k] + b' = d.starts[j] + b := congrArg Endpoint.addr heq
    rcases Nat.lt_trichotomy j k with hjk | rfl | hkj
    · exact hlast k hk hjk ⟨by omega, by omega⟩
    · omega
    · have := Nat.mul_le_mul_right d.shape.runBytes (Nat.succ_le_of_lt hkj)
      rw [Nat.succ_mul] at this
      omega
  · refine Image.apply_of_untouched img fun p hp => ?_
    obtain ⟨j, hj, b, hb, rfl⟩ := exists_run hp
    rw [htarget hj hb]
    exact (he j hj b hb).symm

/-- The same strided side, scattered from the packed side of a transfer. -/
def scattering (d : Descriptor) : Descriptor := { d with direction := .scatter }

/-- The same strided side, gathered into a packed buffer. -/
def gathering (d : Descriptor) (into : Endpoint) : Descriptor :=
  { d with direction := .gather, loc := into }

theorem Addressed.scattering (h : d.Addressed) : d.scattering.Addressed := ⟨h.runs, h.packed⟩

theorem Addressed.gathering (h : d.Addressed) {into : Endpoint}
    (hinto : AccessFits into.addr d.byteCount) : (d.gathering into).Addressed :=
  ⟨h.runs, hinto⟩

/-- Gathering what was scattered yields the packed bytes, if the runs lie apart. -/
theorem gathering_scattering (hapart : RunsApart d.shape.runBytes d.starts) (into : Endpoint)
    (img : Image) {p : Nat} (hp : p < d.byteCount) :
    (d.gathering into).apply (d.scattering.apply img) ⟨into.tier, into.addr + p⟩ =
      img ⟨d.loc.tier, d.loc.addr + p⟩ := by
  obtain ⟨j, hj, b, hb, rfl⟩ := exists_run hp
  have hgathered := gathered_apply (d := d.gathering into) rfl (d.scattering.apply img)
  have hscattered := scattered_apply (d := d.scattering) rfl img
  exact (hgathered.packed j hj b hb).trans
    (hscattered.runs j hj b hb fun k hk hjk => hapart.not_covered hj hk hjk hb)

/-- Scattering what was gathered changes no run: also where runs overlap, each has the bytes it had. -/
theorem scattering_gathering (img : Image) {j b : Nat} (hj : j < d.starts.length)
    (hb : b < d.shape.runBytes) :
    d.scattering.apply ((d.gathering d.loc).apply img) ⟨d.ext.tier, d.starts[j] + b⟩ =
      img ⟨d.ext.tier, d.starts[j] + b⟩ := by
  have htarget : ∀ {k c : Nat} (hk : k < d.starts.length), c < d.shape.runBytes →
      d.scattering.target (k * d.shape.runBytes + c) = ⟨d.ext.tier, d.starts[k] + c⟩ :=
    fun hk hc => congrArg (Endpoint.mk _) (strided_run hk hc)
  have hgathered := gathered_apply (d := d.gathering d.loc) rfl img
  refine Image.apply_settles (R := (· = _)) (.inr ⟨_, run_lt hj hb, htarget hj hb⟩) ?_
  intro p hp heq
  obtain ⟨k, hk, c, hc, rfl⟩ := exists_run (d := d) hp
  rw [← heq, htarget hk hc]
  exact hgathered.packed k hk c hc

end Descriptor

namespace Device

variable {s s' : Device} {d e : Descriptor} {rest : List Descriptor}

/-- Two retired transfers have had their effects, one after the other. -/
theorem retire_two_inv (hq : s.queue.pending = d :: e :: rest) (hd : d.Addressed) (he : e.Addressed)
    (h : retire 2 s = .ok () s') : s'.memory.image = e.apply (d.apply s.memory.image) := by
  obtain ⟨_, s₁, hfirst, hrest⟩ := Stateful.bind_eq_ok.mp h
  obtain ⟨_, s₂, hsecond, hdone⟩ := Stateful.bind_eq_ok.mp hrest
  cases hdone
  have h₁ := retireHead_inv hq hd hfirst
  have hq₁ : s₁.queue.pending = e :: rest := by rw [h₁.queue]; simp [Queue.after, hq]
  have h₂ := retireHead_inv hq₁ he hsecond
  rw [h₂.image, h₁.image, hq₁, hq]
  rfl

/-- Every read counter has room for the bytes of a transfer twice, and a buffer holds them. -/
def RoomForTwo (s : Device) (bytes : Nat) : Prop :=
  bytes ≤ maxBuffer ∧ ∀ t, s.memory.readCount t + 2 * bytes < wordLimit

theorem retire_two_exists (hq : s.queue.pending = d :: e :: rest) (hd : d.Addressed)
    (he : e.Addressed) (hsame : e.byteCount = d.byteCount) (hroom : s.RoomForTwo d.byteCount) :
    ∃ s', retire 2 s = .ok () s' := by
  obtain ⟨hbuffer, hroom⟩ := hroom
  have hsource := hroom d.sourceTier
  obtain ⟨s₁, hfirst⟩ := (retireHead_finishes_iff hq hd).mpr ⟨hbuffer, by omega⟩
  have h₁ := retireHead_inv hq hd hfirst
  have hq₁ : s₁.queue.pending = e :: rest := by rw [h₁.queue]; simp [Queue.after, hq]
  have hcount := h₁.reads e.sourceTier
  rw [hq, List.take_succ_cons, List.take_zero, readBytes, readBytes] at hcount
  have hsource₁ := hroom e.sourceTier
  obtain ⟨s₂, hsecond⟩ := (retireHead_finishes_iff hq₁ he).mpr
    ⟨by omega, by rw [hcount, hsame]; split <;> omega⟩
  exact ⟨s₂, by rw [retire, Stateful.bind_of_ok hfirst, retire, Stateful.bind_of_ok hsecond]; rfl⟩

end Device

open Descriptor

/-- **What retiring a transfer does to the bytes**, for every shape, direction and pair of tiers, also where
the two sides overlap: it moves the bytes of its runs and changes no other byte. Scattering a packed buffer
whose runs lie apart and gathering the runs, into the same buffer or another one, yields its bytes;
gathering the runs and scattering them again leaves every run as it was. -/
theorem transfers_move_their_runs {d : Descriptor} (hd : d.Addressed) :
    ∃ starts, d.runStarts = .ok starts ∧ starts.length = d.shape.runs ∧
      (∀ (s : Device) (rest : List Descriptor), s.queue.pending = d :: rest →
        ((∃ s', Device.retireHead s = .ok () s') ↔ d.byteCount ≤ maxBuffer ∧
          s.memory.readCount d.sourceTier + d.byteCount < wordLimit) ∧
        ∀ s', Device.retireHead s = .ok () s' → match d.direction with
          | .gather => Gathered d starts s.memory.image s'.memory.image
          | .scatter => Scattered d starts s.memory.image s'.memory.image) ∧
      (RunsApart d.shape.runBytes starts → ∀ into : Endpoint, AccessFits into.addr d.byteCount →
        ∀ (s : Device) (rest : List Descriptor),
          s.queue.pending = d.scattering :: d.gathering into :: rest →
          (s.RoomForTwo d.byteCount → ∃ s', Device.retire 2 s = .ok () s') ∧
          ∀ s', Device.retire 2 s = .ok () s' → ∀ p < d.byteCount,
            s'.memory.image ⟨into.tier, into.addr + p⟩ =
              s.memory.image ⟨d.loc.tier, d.loc.addr + p⟩) ∧
      ∀ (s : Device) (rest : List Descriptor),
        s.queue.pending = d.gathering d.loc :: d.scattering :: rest →
        (s.RoomForTwo d.byteCount → ∃ s', Device.retire 2 s = .ok () s') ∧
        ∀ s', Device.retire 2 s = .ok () s' →
          ∀ (j : Nat) (hj : j < starts.length), ∀ b < d.shape.runBytes,
            s'.memory.image ⟨d.ext.tier, starts[j] + b⟩ =
              s.memory.image ⟨d.ext.tier, starts[j] + b⟩ := by
  refine ⟨d.starts, hd.runStarts_eq, d.length_starts, ?_, ?_, ?_⟩
  · intro s rest hq
    refine ⟨Device.retireHead_finishes_iff hq hd, fun s' h => ?_⟩
    have hafter : s'.memory.image = d.apply s.memory.image := by
      rw [(Device.retireHead_inv hq hd h).image, hq]
      rfl
    rw [hafter]
    cases hdir : d.direction with
    | gather => exact gathered_apply hdir _
    | scatter => exact scattered_apply hdir _
  · intro hapart into hinto s rest hq
    have hgather := hd.gathering hinto
    refine ⟨Device.retire_two_exists (d := d.scattering) hq hd.scattering hgather rfl, ?_⟩
    intro s' h p hp
    rw [Device.retire_two_inv hq hd.scattering hgather h]
    exact gathering_scattering hapart into _ hp
  · intro s rest hq
    have hgather := hd.gathering hd.packed
    refine ⟨Device.retire_two_exists (d := d.gathering d.loc) hq hgather hd.scattering rfl, ?_⟩
    intro s' h j hj b hb
    rw [Device.retire_two_inv hq hgather hd.scattering h]
    exact scattering_gathering _ hj hb

/-- Rows that are stored backwards, scattered and gathered again. -/
theorem transfers_move_backward_rows :
    backwardRows.Addressed ∧ ∃ starts, backwardRows.runStarts = .ok starts ∧ starts.length = 9 ∧
      RunsApart 2 starts ∧
      (∀ (s s' : Device), s.queue.pending = [backwardRows] → Device.retireHead s = .ok () s' →
        Scattered backwardRows starts s.memory.image s'.memory.image) ∧
      ∀ s : Device, s.queue.pending = [backwardRows.scattering, backwardRows.gathering ⟨.slow, 7⟩] →
        s.RoomForTwo 18 → ∃ s', Device.retire 2 s = .ok () s' ∧ ∀ p < 18,
          s'.memory.image ⟨.slow, 7 + p⟩ = s.memory.image ⟨.scratchpad, 0 + p⟩ := by
  have hlow : backwardRows.InLowerHalf := ⟨⟨18, rfl, by decide⟩, by decide, by decide⟩
  have haddressed := hlow.fits.toAddressed
  obtain ⟨starts, hstarts, hlength, hmoves, hround, -⟩ := transfers_move_their_runs haddressed
  have heq : starts = [100, 96, 92, 116, 112, 108, 132, 128, 124] := by
    have hrun : backwardRows.runStarts = .ok [100, 96, 92, 116, 112, 108, 132, 128, 124] := rfl
    rw [hrun] at hstarts
    exact (Except.ok.inj hstarts).symm
  have hapart : RunsApart 2 starts := by
    rw [heq]
    unfold RunsApart
    decide
  refine ⟨haddressed, starts, hstarts, hlength, hapart, fun s s' hq => (hmoves s [] hq).2 s', ?_⟩
  intro s hq hroom
  obtain ⟨hexists, hbytes⟩ := hround hapart ⟨.slow, 7⟩ (.inr (by decide)) s [] hq
  obtain ⟨s', h⟩ := hexists hroom
  exact ⟨s', h, hbytes s' h⟩

end TileStream
