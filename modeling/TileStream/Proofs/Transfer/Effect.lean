import TileStream.Proofs.Transfer.Runs

/-! # What a transfer does to the bytes

`Descriptor.apply` is the effect of a transfer on an image: byte `p` of the
packed side and byte `p` of the strided side name the same byte of the
transfer, and every target gets the byte that its source held before.
`move_of_fits` says that moving a transfer that fits has this effect, and
`move_inv` that a move that finishes has done nothing else. -/
namespace TileStream

namespace Bank

/-- Writing run `n` spreads the next `runBytes` bytes of the buffer. -/
theorem write_run (b : Bank) {base n : Nat} {s : Shape} (h : s.Addressed base) (hn : n < s.runs)
    {packed : Array UInt8} (hsize : packed.size = s.byteCount) (t : Tier) (img : Image) :
    ∃ b', write (s.runAt base n)
        (packed.extract (s.runBytes * n) (s.runBytes * n + s.runBytes)).toList b = .ok () b' ∧
      b'.over t img = (b.over t img).spread s.runBytes
        (fun i => ⟨t, s.byteAddress base (s.runBytes * n + i)⟩)
        (fun i => packed.getD (s.runBytes * n + i) 0) ∧
      b'.bytesRead = b.bytesRead := by
  have hend : s.runBytes * n + s.runBytes ≤ packed.size := by
    rw [hsize, Shape.byteCount, ← Nat.mul_succ]
    exact Nat.mul_le_mul_left _ hn
  let data := (packed.extract (s.runBytes * n) (s.runBytes * n + s.runBytes)).toList
  have hdata : data.length = s.runBytes := by
    simp only [data, Array.length_toList, Array.size_extract]
    omega
  have hget : ∀ i < s.runBytes, data.getD i 0 = packed.getD (s.runBytes * n + i) 0 := by
    intro i hi
    simp only [data, List.getD_eq_getElem?_getD, Array.getElem?_toList, Array.getElem?_extract,
      Array.getD_eq_getD_getElem?]
    rw [if_pos (by omega)]
  have hfits : AccessFits (s.runAt base n) data.length := by
    rw [hdata]
    exact h.fits hn
  obtain ⟨b', hwrite, hover, hread⟩ := write_over b hfits t img
  refine ⟨b', hwrite, ?_, hread⟩
  rw [hover, hdata]
  refine Image.spread_congr ?_ hget
  intro i hi
  rw [Nat.mul_comm s.runBytes n, s.byteAddress_run base n i hi]

/-- Spreading a packed buffer writes byte `p` at its strided address, in order. -/
theorem scatter_over {b : Bank} {base : Nat} {s : Shape} (h : s.Addressed base)
    {packed : Array UInt8} (hsize : packed.size = s.byteCount) (t : Tier) (img : Image) :
    ∃ b', scatter base s packed b = .ok () b' ∧
      b'.over t img = (b.over t img).spread s.byteCount (fun p => ⟨t, s.byteAddress base p⟩)
        (fun p => packed.getD p 0) ∧
      b'.bytesRead = b.bytesRead := by
  have hfold : ∀ n ≤ s.runs, ∃ b',
      (List.range n).foldlM (fun first j => (do
        write (s.runAt base j) (packed.extract first (first + s.runBytes)).toList
        return first + s.runBytes : Stateful Bank Nat)) 0 b = .ok (s.runBytes * n) b' ∧
      b'.over t img = (b.over t img).spread (s.runBytes * n)
        (fun p => ⟨t, s.byteAddress base p⟩) (fun p => packed.getD p 0) ∧
      b'.bytesRead = b.bytesRead := by
    intro n
    induction n with
    | zero => exact fun _ => ⟨b, rfl, rfl, rfl⟩
    | succ n ih =>
      intro hn
      obtain ⟨mid, hmid, himg, hread⟩ := ih (by omega)
      obtain ⟨b', hwrite, hover, hread'⟩ := write_run mid h hn hsize t img
      refine ⟨b', ?_, ?_, hread'.trans hread⟩
      · rw [List.range_succ, List.foldlM_append, Stateful.bind_of_ok hmid, List.foldlM_cons,
          bind_assoc, Stateful.bind_of_ok hwrite]
        rfl
      · rw [hover, himg, Nat.mul_succ, Image.spread_add]
  obtain ⟨b', hok, hover, hread⟩ := hfold s.runs (Nat.le_refl _)
  refine ⟨b', ?_, hover, hread⟩
  unfold scatter
  rw [RunCursor.visit_start _ h, Stateful.discard_of_ok hok]

end Bank

namespace Descriptor

def byteCount (d : Descriptor) : Nat := d.shape.byteCount

/-- Where byte `p` of a transfer comes from. -/
def source (d : Descriptor) (p : Nat) : Endpoint :=
  match d.direction with
  | .gather => ⟨d.ext.tier, d.shape.byteAddress d.ext.addr p⟩
  | .scatter => ⟨d.loc.tier, d.loc.addr + p⟩

/-- Where byte `p` of a transfer goes. -/
def target (d : Descriptor) (p : Nat) : Endpoint :=
  match d.direction with
  | .gather => ⟨d.loc.tier, d.loc.addr + p⟩
  | .scatter => ⟨d.ext.tier, d.shape.byteAddress d.ext.addr p⟩

def sourceTier (d : Descriptor) : Tier :=
  match d.direction with
  | .gather => d.ext.tier
  | .scatter => d.loc.tier

theorem target_tier (d : Descriptor) (p : Nat) : (d.target p).tier = d.destination.tier := by
  unfold target destination
  cases d.direction <;> rfl

/-- The effect of a transfer: every byte is read first, then all are written in order. -/
def apply (d : Descriptor) (img : Image) : Image :=
  img.spread d.byteCount d.target fun p => img (d.source p)

/-- No address of a transfer overflows. -/
structure Addressed (d : Descriptor) : Prop where
  runs : d.shape.Addressed d.ext.addr
  packed : AccessFits d.loc.addr d.byteCount

/-- No address of a transfer overflows, and its bytes fit a buffer. -/
structure Fits (d : Descriptor) : Prop extends Addressed d where
  buffer : d.byteCount ≤ maxBuffer

theorem Fits.totalBytes {d : Descriptor} (h : d.Fits) : d.totalBytes = .ok d.byteCount := by
  have hlimit : maxBuffer < wordLimit := by decide
  exact Shape.totalBytes_eq_ok_iff.mpr ⟨Nat.lt_of_le_of_lt h.buffer hlimit, rfl⟩

theorem Fits.checkBuffer {d : Descriptor} (h : d.Fits) : checkBuffer d.byteCount = .ok () :=
  if_neg (Nat.not_lt_of_le h.buffer)

/-- What the source of a transfer holds, as a packed buffer. -/
def contents (d : Descriptor) (img : Image) : List UInt8 :=
  (List.range d.byteCount).map fun p => img (d.source p)

theorem length_contents (d : Descriptor) (img : Image) :
    (d.contents img).length = d.byteCount := by
  simp [contents]

theorem getD_contents {d : Descriptor} {img : Image} {p : Nat} (hp : p < d.byteCount) :
    (d.contents img).getD p 0 = img (d.source p) := by
  simp [contents, List.getD_eq_getElem?_getD, hp]

theorem look_gather {d : Descriptor} (h : d.Fits) (hdir : d.direction = .gather) (m : Memory) :
    ∃ packed, Memory.look d.ext.tier (·.gather d.ext.addr d.shape) m = .ok packed m ∧
      packed.toList = d.contents m.image := by
  obtain ⟨packed, hok, hlist⟩ := Bank.gather_eq (b := m.bank d.ext.tier) h.runs
  refine ⟨packed, by rw [Memory.look, hok], ?_⟩
  simp only [contents, source, hdir]
  exact hlist

theorem look_read {d : Descriptor} (h : d.Fits) (hdir : d.direction = .scatter) (m : Memory) :
    ∃ packed, Memory.look d.loc.tier (·.read d.loc.addr d.byteCount) m = .ok packed m ∧
      packed.toList = d.contents m.image := by
  obtain ⟨packed, hok, hlist⟩ := Memory.look_read_exists h.packed h.buffer m d.loc.tier
  refine ⟨packed, hok, ?_⟩
  simp only [contents, source, hdir]
  exact hlist

/-- Moving a transfer that fits has its effect, and counts its bytes as read. -/
theorem move_of_fits {d : Descriptor} (h : d.Fits) {m : Memory}
    (hcount : m.readCount d.sourceTier + d.byteCount < wordLimit) :
    ∃ m', d.move m = .ok () m' ∧ m'.image = d.apply m.image ∧
      ∀ t, m'.readCount t = m.readCount t + if t = d.sourceTier then d.byteCount else 0 := by
  unfold move
  rw [h.totalBytes, Stateful.bind_of_ok (Stateful.lift_ok _ m)]
  cases hdir : d.direction with
  | gather =>
    have hsource : d.sourceTier = d.ext.tier := by simp only [sourceTier, hdir]
    obtain ⟨packed, hlook, hlist⟩ := look_gather h hdir m
    rw [hsource] at hcount
    obtain ⟨m₁, hread, himg₁, hcount₁⟩ := Memory.onBank_countRead d.ext.addr hcount
    have hlen : packed.toList.length = d.byteCount := by rw [hlist, length_contents]
    have hpacked : AccessFits d.loc.addr packed.toList.length := by
      rw [hlen]
      exact h.packed
    obtain ⟨b, hwrite, hover, hkeep⟩ :=
      Bank.write_over (m₁.bank d.loc.tier) hpacked d.loc.tier m₁.image
    obtain ⟨m₂, hcountw, himg₂, hcount₂⟩ :=
      Memory.update_countWrite (m₁.withBank d.loc.tier b) d.loc.tier d.loc.addr d.byteCount
    refine ⟨m₂, ?_, ?_, ?_⟩
    · simp only []
      rw [h.checkBuffer, Stateful.bind_of_ok (Stateful.lift_ok _ m), Stateful.bind_of_ok hlook,
        Stateful.bind_of_ok hread, Stateful.bind_of_ok (Memory.onBank_over hwrite), hcountw]
    · rw [himg₂, Memory.image_withBank, hover, Memory.over_bank, himg₁, hlen, apply]
      refine Image.spread_congr (fun p _ => by simp only [target, hdir]) (fun p hp => ?_)
      rw [hlist, getD_contents hp]
    · intro t
      rw [hcount₂, Memory.readCount_withBank_of_eq hkeep, hcount₁, hsource]
  | scatter =>
    have hsource : d.sourceTier = d.loc.tier := by simp only [sourceTier, hdir]
    rw [hsource] at hcount
    obtain ⟨m₁, hread, himg₁, hcount₁⟩ := Memory.onBank_countRead d.loc.addr hcount
    obtain ⟨packed, hlook, hlist⟩ := look_read h hdir m₁
    have hsize : packed.size = d.shape.byteCount := by
      rw [← Array.length_toList, hlist, length_contents]; rfl
    obtain ⟨b, hwrite, hover, hkeep⟩ := Bank.scatter_over (b := m₁.bank d.ext.tier) h.runs hsize
      d.ext.tier m₁.image
    obtain ⟨m₂, hcountw, himg₂, hcount₂⟩ :=
      Memory.update_countWrite (m₁.withBank d.ext.tier b) d.ext.tier d.ext.addr d.byteCount
    refine ⟨m₂, ?_, ?_, ?_⟩
    · simp only []
      rw [Stateful.bind_of_ok hread, Stateful.bind_of_ok hlook,
        Stateful.bind_of_ok (Memory.onBank_over hwrite), hcountw]
    · rw [himg₂, Memory.image_withBank, hover, Memory.over_bank, himg₁, apply]
      refine Image.spread_congr (fun p _ => by simp only [target, hdir]) (fun p hp => ?_)
      rw [Array.getD_eq_getD_getElem?, ← Array.getElem?_toList, ← List.getD_eq_getElem?_getD, hlist,
        getD_contents hp, himg₁]
    · intro t
      rw [hcount₂, Memory.readCount_withBank_of_eq hkeep, hcount₁, hsource]

/-- A transfer whose bytes no longer fit the read counter stops. -/
theorem move_of_full {d : Descriptor} (h : d.Fits) {m : Memory}
    (hcount : ¬ m.readCount d.sourceTier + d.byteCount < wordLimit) :
    ∃ m', d.move m = .error .addOverflow m' := by
  unfold move
  rw [h.totalBytes, Stateful.bind_of_ok (Stateful.lift_ok _ m)]
  cases hdir : d.direction with
  | gather =>
    simp only [sourceTier, hdir] at hcount
    obtain ⟨packed, hlook, _⟩ := look_gather h hdir m
    obtain ⟨m', herr⟩ := Memory.onBank_countRead_error d.ext.addr hcount
    refine ⟨m', ?_⟩
    simp only []
    rw [h.checkBuffer, Stateful.bind_of_ok (Stateful.lift_ok _ m), Stateful.bind_of_ok hlook,
      Stateful.bind_of_error herr]
  | scatter =>
    simp only [sourceTier, hdir] at hcount
    obtain ⟨m', herr⟩ := Memory.onBank_countRead_error d.loc.addr hcount
    refine ⟨m', ?_⟩
    simp only []
    rw [Stateful.bind_of_error herr]

/-- A transfer of more bytes than a buffer holds stops. -/
theorem move_of_large {d : Descriptor} (h : maxBuffer < d.byteCount) (m : Memory) :
    ∃ e m', d.move m = .error e m' := by
  have hbuffer : TileStream.checkBuffer d.byteCount = .error .bufferTooLarge := if_pos h
  unfold move
  cases htotal : d.totalBytes with
  | error e => exact ⟨e, m, rfl⟩
  | ok total =>
    obtain ⟨-, rfl⟩ := Shape.totalBytes_eq_ok_iff.mp htotal
    rw [Stateful.bind_of_ok (Stateful.lift_ok _ m)]
    cases d.direction with
    | gather => exact ⟨.bufferTooLarge, m, by
        simp only [show d.shape.runBytes * d.shape.runs = d.byteCount from rfl, hbuffer]; rfl⟩
    | scatter =>
      simp only []
      cases hread : Memory.onBank d.loc.tier (Bank.countRead d.loc.addr _) m with
      | error e m' => exact ⟨e, m', Stateful.bind_of_error hread⟩
      | ok u m' =>
        refine ⟨.bufferTooLarge, m', ?_⟩
        rw [Stateful.bind_of_ok hread, Stateful.bind_of_error]
        rw [Memory.look, Bank.read,
          show d.shape.runBytes * d.shape.runs = d.byteCount from rfl, hbuffer]
        rfl

/-- A move that finishes has had its effect. -/
theorem move_inv {d : Descriptor} (h : d.Addressed) {m m' : Memory}
    (hmove : d.move m = .ok () m') :
    m'.image = d.apply m.image ∧
      ∀ t, m'.readCount t = m.readCount t + if t = d.sourceTier then d.byteCount else 0 := by
  rcases Nat.lt_or_ge maxBuffer d.byteCount with hlarge | hbuffer
  · obtain ⟨e, m'', herr⟩ := move_of_large hlarge m
    rw [herr] at hmove
    cases hmove
  · have hfits : d.Fits := ⟨h, hbuffer⟩
    by_cases hcount : m.readCount d.sourceTier + d.byteCount < wordLimit
    · obtain ⟨m'', hok, himg, hreads⟩ := move_of_fits hfits hcount
      rw [hok] at hmove
      cases hmove
      exact ⟨himg, hreads⟩
    · obtain ⟨m'', herr⟩ := move_of_full hfits hcount
      rw [herr] at hmove
      cases hmove

/-- A gathering move that finishes has computed every address on the strided side. -/
theorem addressed_of_move {d : Descriptor} (hdir : d.direction = .gather)
    (hpacked : AccessFits d.loc.addr d.byteCount) {m m' : Memory} (hmove : d.move m = .ok () m') :
    d.Addressed := by
  obtain ⟨total, m₁, -, hmove⟩ := Stateful.bind_eq_ok.mp hmove
  simp only [hdir] at hmove
  obtain ⟨_, m₂, -, hmove⟩ := Stateful.bind_eq_ok.mp hmove
  obtain ⟨packed, m₃, hlook, -⟩ := Stateful.bind_eq_ok.mp hmove
  exact ⟨Bank.addressed_of_gather (Memory.look_inv hlook).1, hpacked⟩

end Descriptor

end TileStream
