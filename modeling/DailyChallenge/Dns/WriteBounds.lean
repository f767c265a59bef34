import Mathlib
import DailyChallenge.Dns.EncodeName

/-!
# Which names are encoded within the arrays

The length checks of `encode_name` come after the writes that they are about. `Safe` is what they
are there for: the encoder ends, writes inside its two arrays and refuses a label or a name that is
too long. `safe_iff_fits` shows that this is so exactly for the names that fit the arrays anyway.
`seg` is overrun before the check of a label can fail, and the check of the name refuses only what
is still within the buffer.
-/

set_option autoImplicit false
set_option relaxedAutoImplicit false

namespace DailyChallenge.Dns

open Library

/-- `encode_name` ends without a write out of bounds, and returns -1 for a label over 63 bytes or
an encoding over 255 bytes. -/
def Safe (domain : CString) (seg buf : ℕ → UInt8) : Prop :=
  ∃ result, encodeName domain seg buf = some result ∧ result ≠ .error .outOfBounds ∧
    ((∃ label ∈ domain.labels, maxLabelSegment < label.length) ∨
      maxLabelTotal < domain.encode.length → result = .error .failed)

/-- The encoder ends, stays inside its arrays and refuses what is too long exactly for the strings
whose labels have at most 63 bytes and whose name has at most 512. -/
theorem safe_iff_fits (domain : CString) (seg buf : ℕ → UInt8) :
    Safe domain seg buf ↔ domain.Fits := by
  obtain ⟨hunfit, hlong, hshort⟩ := encodeName_outcome domain seg buf
  constructor
  · rintro ⟨result, hresult, hbounds, -⟩
    by_contra hfull
    rw [hunfit hfull] at hresult
    exact hbounds (Option.some_inj.mp hresult).symm
  · intro hfits
    have hlabels : ¬ ∃ label ∈ domain.labels, maxLabelSegment < label.length := by
      rintro ⟨label, hlabel, hlength⟩
      exact absurd (hfits.1 label hlabel) (not_le.mpr hlength)
    unfold Safe
    rw [domain.length_encode]
    by_cases htotal : maxLabelTotal < domain.strlen + 2
    · exact ⟨_, hlong hfits htotal, by simp, fun _ ↦ rfl⟩
    · obtain ⟨encoded, hok, -⟩ := hshort hfits (not_lt.mp htotal)
      refine ⟨_, hok, nofun, ?_⟩
      rintro (hlabel | hover)
      · exact absurd hlabel hlabels
      · exact absurd hover htotal

/-- A label of 64 bytes is written past the end of `seg`. -/
theorem not_safe_longLabel :
    ¬ Safe ⟨List.replicate 64 97, by decide⟩ (fun _ ↦ 0) (fun _ ↦ 0) := by
  rintro ⟨result, hresult, hbounds, -⟩
  have hfault : encodeName ⟨List.replicate 64 97, by decide⟩ (fun _ ↦ 0) (fun _ ↦ 0) =
      some (.error .outOfBounds) := by rfl
  rw [hfault] at hresult
  exact hbounds (Option.some_inj.mp hresult).symm

end DailyChallenge.Dns
