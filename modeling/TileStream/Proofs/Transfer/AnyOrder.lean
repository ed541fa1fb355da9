import TileStream.Proofs.Transfer.Box
import TileStream.Proofs.Transfer.Retire

/-! # Transfers that may retire in any order

Where all transfers that write a byte give it a value of some kind, and nobody
writes what they read, their order does not matter. `settles` and `kept` say so
for a list of parts of some whole transfers that covers these, and `origin` says
where such a byte comes from; `applyAll_frame` says that a change shows nowhere
else if no transfer looks at it. -/
namespace TileStream

/-- No transfer of a list writes to an endpoint. -/
def Untouched (ds : List Descriptor) (e : Endpoint) : Prop :=
  ∀ d ∈ ds, ∀ p < d.byteCount, d.target p ≠ e

/-- No transfer of a list reads from an endpoint. -/
def Unread (ds : List Descriptor) (e : Endpoint) : Prop :=
  ∀ d ∈ ds, ∀ p < d.byteCount, d.source p ≠ e

theorem exists_of_not_untouched {ds : List Descriptor} {e : Endpoint} (h : ¬ Untouched ds e) :
    ∃ d ∈ ds, ∃ p < d.byteCount, d.target p = e := by
  simpa [Untouched] using h

/-- Where a byte is before some transfers that ends at `e`, in whatever order they retire: none of them
writes to `e`, or all that do so read it from one place, to which none of them writes. -/
inductive Origin (ds : List Descriptor) (e : Endpoint) : Endpoint → Prop where
  | kept (hquiet : Untouched ds e) : Origin ds e e
  | copied {source : Endpoint} (hquiet : Untouched ds source)
      (hsome : ∃ d ∈ ds, ∃ p < d.byteCount, d.target p = e)
      (hall : ∀ d ∈ ds, ∀ p < d.byteCount, d.target p = e → d.source p = source) :
      Origin ds e source

namespace Image

theorem apply_of_untouched {d : Descriptor} {e : Endpoint} (img : Image)
    (h : ∀ p < d.byteCount, d.target p ≠ e) : d.apply img e = img e :=
  spread_of_untouched h

theorem apply_settles {d : Descriptor} {e : Endpoint} {img : Image} {R : UInt8 → Prop}
    (hsome : R (img e) ∨ ∃ p < d.byteCount, d.target p = e)
    (hall : ∀ p < d.byteCount, d.target p = e → R (img (d.source p))) : R (d.apply img e) :=
  spread_settles hsome hall

theorem applyAll_of_untouched {ds : List Descriptor} {e : Endpoint} (img : Image)
    (h : Untouched ds e) : img.applyAll ds e = img e := by
  induction ds generalizing img with
  | nil => rfl
  | cons d ds ih =>
    rw [applyAll_cons, ih (d.apply img) fun d' hd' => h d' (List.mem_cons_of_mem d hd'),
      apply_of_untouched img (h d List.mem_cons_self)]

/-- What holds of every value for a byte holds of the byte in the end, if it held before or the byte
is written, and if nobody writes what is read for it. -/
theorem applyAll_settles {ds : List Descriptor} {e : Endpoint} {img : Image} {R : UInt8 → Prop}
    (hsome : R (img e) ∨ ∃ d ∈ ds, ∃ p < d.byteCount, d.target p = e)
    (hall : ∀ d ∈ ds, ∀ p < d.byteCount, d.target p = e →
      R (img (d.source p)) ∧ Untouched ds (d.source p)) : R (img.applyAll ds e) := by
  induction ds generalizing img with
  | nil =>
    rcases hsome with hinit | ⟨d, hd, -⟩
    · exact hinit
    · cases hd
  | cons d ds ih =>
    rw [applyAll_cons]
    refine ih ?_ ?_
    · by_cases hlater : ∃ d' ∈ ds, ∃ p < d'.byteCount, d'.target p = e
      · exact .inr hlater
      · refine .inl (apply_settles (hsome.imp_right ?_) fun p hp htarget =>
          (hall d List.mem_cons_self p hp htarget).1)
        rintro ⟨d', hd', hwrite⟩
        rcases List.mem_cons.mp hd' with rfl | hin
        · exact hwrite
        · exact absurd ⟨d', hin, hwrite⟩ hlater
    · -- what the later transfers read is not changed by the first one
      intro d' hd' p hp htarget
      obtain ⟨hvalue, hquiet⟩ := hall d' (List.mem_cons_of_mem d hd') p hp htarget
      refine ⟨?_, fun d'' hd'' => hquiet d'' (List.mem_cons_of_mem d hd'')⟩
      rw [apply_of_untouched img (hquiet d List.mem_cons_self)]
      exact hvalue

/-- A change to bytes that no transfer reads shows nowhere else. -/
theorem applyAll_frame {ds : List Descriptor} {img img' : Image} {W : Endpoint → Prop}
    (hsame : ∀ e, ¬ W e → img' e = img e) (hunread : ∀ e, W e → Unread ds e) {e : Endpoint}
    (he : ¬ W e) : img'.applyAll ds e = img.applyAll ds e := by
  induction ds generalizing img img' with
  | nil => exact hsame e he
  | cons d ds ih =>
    have hsource : ∀ p < d.byteCount, ¬ W (d.source p) := fun p hp hW =>
      hunread _ hW d List.mem_cons_self p hp rfl
    refine ih ?_ fun e he d' hd' => hunread e he d' (List.mem_cons_of_mem d hd')
    intro e he
    have hvalues : d.apply img' = img'.spread d.byteCount d.target fun p => img (d.source p) :=
      spread_congr (fun _ _ => rfl) fun p hp => hsame _ (hsource p hp)
    show d.apply img' e = d.apply img e
    rw [hvalues]
    exact spread_same (hsame e he)

end Image

/-! ## Parts of whole transfers -/

/-- The transfers of a list are parts of some whole ones, and leave no byte of them out. -/
structure Covers (ds wholes : List Descriptor) : Prop where
  parts : ∀ d ∈ ds, ∃ w ∈ wholes, ∃ first, d.Part w first
  all : ∀ w ∈ wholes, ∀ p < w.byteCount,
    ∃ d ∈ ds, ∃ first q, d.Part w first ∧ q < d.byteCount ∧ p = first + q

namespace Covers

variable {ds wholes : List Descriptor} {e : Endpoint} {img : Image}

theorem self (ds : List Descriptor) : Covers ds ds :=
  ⟨fun d hd => ⟨d, hd, 0, d.part_self⟩,
    fun w hw p hp => ⟨w, hw, 0, p, w.part_self, hp, (Nat.zero_add p).symm⟩⟩

theorem untouched_parts (hparts : ∀ d ∈ ds, ∃ w ∈ wholes, ∃ first, d.Part w first)
    (h : Untouched wholes e) : Untouched ds e := by
  intro d hd p hp htarget
  obtain ⟨w, hw, first, hpart⟩ := hparts d hd
  have hwithin := hpart.within
  rw [hpart.target p hp] at htarget
  exact h w hw (first + p) (by omega) htarget

/-- A byte that no whole transfer writes stays as it is. -/
theorem kept (h : Covers ds wholes) (hquiet : Untouched wholes e) :
    img.applyAll ds e = img e :=
  Image.applyAll_of_untouched img (untouched_parts h.parts hquiet)

theorem unread_parts (hparts : ∀ d ∈ ds, ∃ w ∈ wholes, ∃ first, d.Part w first)
    (h : Unread wholes e) : Unread ds e := by
  intro d hd p hp hsource
  obtain ⟨w, hw, first, hpart⟩ := hparts d hd
  have hwithin := hpart.within
  rw [hpart.source p hp] at hsource
  exact h w hw (first + p) (by omega) hsource

/-- What holds of every value that a whole transfer has for a byte holds of the byte in the end. -/
theorem settles (h : Covers ds wholes) {R : UInt8 → Prop}
    (hsome : R (img e) ∨ ∃ w ∈ wholes, ∃ p < w.byteCount, w.target p = e)
    (hall : ∀ w ∈ wholes, ∀ p < w.byteCount, w.target p = e →
      R (img (w.source p)) ∧ Untouched wholes (w.source p)) : R (img.applyAll ds e) := by
  refine Image.applyAll_settles (hsome.imp_right ?_) ?_
  · rintro ⟨w, hw, p, hp, htarget⟩
    obtain ⟨d, hd, first, q, hpart, hq, rfl⟩ := h.all w hw p hp
    exact ⟨d, hd, q, hq, by rw [hpart.target q hq, htarget]⟩
  · intro d hd p hp htarget
    obtain ⟨w, hw, first, hpart⟩ := h.parts d hd
    have hwithin := hpart.within
    rw [hpart.target p hp] at htarget
    rw [hpart.source p hp]
    obtain ⟨hvalue, hquiet⟩ := hall w hw (first + p) (by omega) htarget
    exact ⟨hvalue, untouched_parts h.parts hquiet⟩

/-- **A byte with an origin comes from there**, whatever the order of the parts is. -/
theorem origin (h : Covers ds wholes) {source : Endpoint} (horigin : Origin wholes e source) :
    img.applyAll ds e = img source := by
  cases horigin with
  | kept hquiet => exact h.kept hquiet
  | copied hquiet hsome hall =>
    refine h.settles (R := (· = img source)) (.inr hsome) fun w hw p hp htarget => ?_
    rw [hall w hw p hp htarget]
    exact ⟨rfl, hquiet⟩

end Covers

end TileStream
