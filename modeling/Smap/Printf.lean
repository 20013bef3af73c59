import Smap.Bytes

/-! # Printing

`smap_vasnprintf` of `src/lib/vasnprintf.c`, through which go all diagnostics, the replies written
with `smap_stream_printf` and the queries of `smapc`.

* **Arguments.** A text stands for the format and the arguments it is made of.  `vsnprintf` reads
  the arguments behind `ap` to their end, and the loop hands the same `ap` to its next pass.  What
  a second reading does is undefined.
* **Buffer.** 512 bytes at first, twice as many for the second pass.
* **Result.** `smapStreamPrintf_isSome`: as long as there is memory, the texts that can be printed
  are those of less than 512 bytes. -/

namespace Smap

/-- What a call of `smap_vasnprintf` leaves in the buffer. -/
inductive Vasnprintf where
  | text (t : Bytes)
  | noMemory
  | undefined
deriving DecidableEq, Repr

/-- `smap_vasnprintf` with no buffer of the caller; `alloc` tells which sizes `calloc` and
`realloc` grant. -/
def smapVasnprintf (alloc : ℕ → Bool) (text : Bytes) : Vasnprintf :=
  if !alloc 512 then .noMemory
  else if text.length < 512 then .text text
  else if !alloc (2 * 512) then .noMemory
  -- `vsnprintf` once more, with the `ap` it has read
  else .undefined

/-- `smap_stream_vprintf`: what is written to the stream, unless it is undefined. -/
def smapStreamVprintf (alloc : ℕ → Bool) (text : Bytes) : Option Bytes :=
  match smapVasnprintf alloc text with
  | .text t => some (cString t)
  | .noMemory => some []
  | .undefined => none

/-- `smap_error`: what is printed goes to the error stream. -/
def smapError (alloc : ℕ → Bool) (text : Bytes) : Option Unit := (smapStreamVprintf alloc text).map fun _ => ()

/-- `smap_stream_printf` as long as there is memory. -/
def smapStreamPrintf (text : Bytes) : Option Bytes := smapStreamVprintf (fun _ => true) text

/-- A text is printed without reading the arguments twice. -/
abbrev Printable (text : Bytes) : Prop := text.length < 512

/-- A text is printed, or there is no memory for it, or it is too long. -/
theorem smapStreamVprintf_cases (alloc : ℕ → Bool) (text : Bytes) :
    (smapStreamVprintf alloc text = some (cString text) ∧ Printable text) ∨
      (smapStreamVprintf alloc text = some [] ∧ ∃ n, alloc n = false) ∨
      (smapStreamVprintf alloc text = none ∧ ¬Printable text) := by
  unfold smapStreamVprintf smapVasnprintf
  cases h512 : alloc 512 with
  | false => exact .inr (.inl ⟨rfl, 512, h512⟩)
  | true =>
      by_cases hlen : text.length < 512
      · exact .inl ⟨by simp [hlen], hlen⟩
      · cases h1024 : alloc (2 * 512) with
        | false => exact .inr (.inl ⟨by simp [hlen], 2 * 512, h1024⟩)
        | true => exact .inr (.inr ⟨by simp [hlen], hlen⟩)

theorem smapError_cases (alloc : ℕ → Bool) (text : Bytes) :
    (smapError alloc text = some () ∧ (Printable text ∨ ∃ n, alloc n = false)) ∨
      (smapError alloc text = none ∧ ¬Printable text) := by
  unfold smapError
  obtain ⟨h, hp⟩ | ⟨h, hn⟩ | ⟨h, hp⟩ := smapStreamVprintf_cases alloc text
  · rw [h]
    exact .inl ⟨rfl, .inl hp⟩
  · rw [h]
    exact .inl ⟨rfl, .inr hn⟩
  · rw [h]
    exact .inr ⟨rfl, hp⟩

theorem smapStreamPrintf_eq (text : Bytes) :
    smapStreamPrintf text = if Printable text then some (cString text) else none := by
  unfold smapStreamPrintf smapStreamVprintf smapVasnprintf
  by_cases h : text.length < 512
  · simp [h]
  · simp [h]

theorem smapStreamPrintf_isSome (text : Bytes) :
    (smapStreamPrintf text).isSome = true ↔ Printable text := by
  rw [smapStreamPrintf_eq]
  split_ifs with h
  · simp [h]
  · simp [h]

/-- Strings that are short enough are printed as they are. -/
theorem smapStreamPrintf_text {text : Bytes} (h0 : 0 ∉ text) (h : Printable text) :
    smapStreamPrintf text = some text := by
  rw [smapStreamPrintf_eq, if_pos h, cString_eq_self h0]

theorem smapStreamPrintf_long {text : Bytes} (h : ¬ Printable text) : smapStreamPrintf text = none := by
  rw [smapStreamPrintf_eq, if_neg h]

end Smap
