import Smap.Stream.Line
import Smap.Sockmap.Decode

/-! # Sending lines

The line-buffered output stream of a sockmap connection takes every line as one frame
(`outputMethods_takesLines`), so the rules for lines apply to it. -/

namespace Smap.Sockmap

open Wire Smap.Stream Smap.Stream.SmapStream

variable {ε : Type} {w : ℕ}

/-- A line that is written is sent as one frame. -/
theorem wp_writeUnbuffered_line (junk : ℕ) {F : ℕ} (hF : 1 < F) {s : SmapStream Unit} {text : Bytes}
    (hcan : s.canWrite = true) (herr : s.err = false) (hw : text.length < 2 ^ w)
    (hd : (decimal text.length).length < strlenBound w) {t : List (Item UInt8 ε)}
    {Q : WriteRes Unit → List (Item UInt8 ε) → Prop}
    (hQ : Q { stream := { s with wrt := true, lastErr := 0 }, rc := 0,
              nwritten := some (text.length + 1) } t) :
    wp (writeUnbuffered (ε := ε) junk (outputMethods w) F s (text ++ [nl]) true) Q
      (.out (frame text) :: t) := by
  obtain ⟨F, rfl⟩ : ∃ n, F = n + 2 := ⟨F - 2, by omega⟩
  have hne : ¬ text ++ [nl] = [] := by simp
  simp only [writeUnbuffered, outputMethods, hcan, herr, Bool.not_true, Bool.false_eq_true, if_false,
    hne, if_true, fullWrite, outputStreamWrite, encode_line hw hd, Prog.write_bind, wp]
  refine ⟨trivial, fun e => ?_⟩
  simpa [SmapStream.seterror, wp, herr] using hQ

/-- The lines whose length the prefix of a frame can say. -/
def Sendable (w : ℕ) (text : Bytes) : Prop :=
  text.length < 2 ^ w ∧ (decimal text.length).length < strlenBound w

theorem outputMethods_takesLines (junk : ℕ) {F : ℕ} (hF : 1 < F) :
    TakesLines junk F (outputMethods (ε := ε) w) (Sendable w) fun text => .out (frame text) where
  takes hcan herr hP hQ := wp_writeUnbuffered_line junk hF hcan herr hP.1 hP.2 (hQ ())

/-- A length below the largest one of `ssize_t` can be doubled. -/
theorem half_le (hw : 0 < w) : 2 ^ (w - 1) ≤ 2 ^ w - 1 := by
  have hpow : 2 * 2 ^ (w - 1) = 2 ^ w := mul_pow_sub_one hw.ne' 2
  have hpos : 0 < 2 ^ (w - 1) := Nat.two_pow_pos _
  omega

end Smap.Sockmap
