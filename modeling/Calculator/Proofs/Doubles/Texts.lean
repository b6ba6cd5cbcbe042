import Calculator.Double.Text
import Calculator.Proofs.Decimals.Reading
import Calculator.Proofs.Decimals.Shortest
import Calculator.Proofs.Doubles.Symmetry

/-!
# The text of a double reads back

A text says which double it has been written from: its sign, and either one of two words or a
decimal in the interval of the double. So different doubles have different texts, zeros with
different signs included.

* `read`: the double that a text says;
* `read_text`: the text of a double says that double (`text_injective`);
* `text_cases`: the characters of a text.
-/

namespace Calculator.Double

open Float.Model (UnpackedFloat)
open Float.Model.UnpackedFloat
open Decimal (keepsValue_trimZeros readPrefix? shortest trimZeros denotes_positional
  isDigit_or_of_mem_positional inInterval_shortest)

variable {m : Nat} {e : Int} {c : Char} {cs : List Char}

/-! ### Reading -/

/-- The double that a text without a sign says. -/
def readUnsigned (cs : List Char) : Float :=
  if cs = "NaN".toList then nan
  else if cs = "inf".toList then infinity
  else
    match readPrefix? cs with
    | some d => d.toFloat
    | none => nan

/-- **The double that a text says.** -/
def read : List Char → Float
  | '-' :: cs => -readUnsigned cs
  | cs => readUnsigned cs

theorem read_signText {v : Sign → UnpackedFloat} (hneg : (v .positive).neg = v .negative)
    (hhead : cs.head? ≠ some '-') (hcs : readUnsigned cs = ofParts (v .positive)) (s : Sign) :
    read (signText s ++ cs) = ofParts (v s) := by
  cases s with
  | positive =>
    show read cs = _
    unfold read
    split
    · exact absurd rfl hhead
    · exact hcs
  | negative =>
    show -readUnsigned cs = _
    rw [hcs, ← hneg, ofParts_neg]

/-- **The digits of a double say it.** They are neither of the two words, which have letters. -/
theorem readUnsigned_shortest (hc : Canonical m e) :
    readUnsigned ((shortest m e).positional trimZeros) = ofParts (.finite .positive m e hc.pos) := by
  have hne {cs : List Char} {c : Char} (hmem : c ∈ cs) (hletter : ¬(c.isDigit = true ∨ c = '.')) :
      (shortest m e).positional trimZeros ≠ cs := by
    rintro rfl
    exact hletter (isDigit_or_of_mem_positional keepsValue_trimZeros hmem)
  have hnan : (shortest m e).positional trimZeros ≠ "NaN".toList :=
    hne (c := 'N') (by decide) (by decide)
  have hinf : (shortest m e).positional trimZeros ≠ "inf".toList :=
    hne (c := 'i') (by decide) (by decide)
  obtain ⟨d, hread, hvalue⟩ := (denotes_positional keepsValue_trimZeros (shortest m e)).value
  have hinterval := inInterval_shortest hc
  rw [← hvalue] at hinterval
  unfold readUnsigned
  rw [if_neg hnan, if_neg hinf, hread]
  exact hinterval.toFloat_eq hc

/-! ### All doubles -/

/-- **The text of a double says that double.** -/
theorem read_text (x : Float) : read (text x).toList = x := by
  conv_rhs => rw [← ofParts_parts x]
  unfold text
  cases hx : parts x with
  | notANumber => rfl
  | infinity s =>
    dsimp only
    rw [String.toList_ofList]
    exact read_signText (v := .infinity) rfl (by decide) rfl s
  | zero s =>
    dsimp only
    rw [String.toList_ofList]
    exact read_signText (v := .zero) rfl (by decide) rfl s
  | finite s m e hm =>
    have hhead : ((shortest m e).positional trimZeros).head? ≠ some '-' := by
      intro h
      have hminus := isDigit_or_of_mem_positional keepsValue_trimZeros (List.mem_of_mem_head? h)
      exact absurd hminus (by decide)
    dsimp only
    rw [String.toList_ofList]
    exact read_signText (v := fun s => .finite s m e hm) rfl hhead
      (readUnsigned_shortest (canonical_of_parts hx)) s

theorem text_injective : Function.Injective text := by
  intro x y h
  rw [← read_text x, h, read_text]

theorem mem_signed {s : Sign} (hcs : ∀ c ∈ cs, c.isDigit = true ∨ c = '.')
    (hc : c ∈ (String.ofList (signText s ++ cs)).toList) :
    c.isDigit = true ∨ c = '.' ∨ c = '-' := by
  rw [String.toList_ofList] at hc
  rcases List.mem_append.1 hc with hc | hc
  · cases s with
    | positive => cases hc
    | negative => exact .inr (.inr (List.mem_singleton.1 hc))
  · exact (hcs c hc).imp_right .inl

/-- **A text is a word, or digits and a point** with a sign. -/
theorem text_cases (x : Float) : text x ∈ ["NaN", "inf", "-inf"] ∨
    ∀ c ∈ (text x).toList, c.isDigit = true ∨ c = '.' ∨ c = '-' := by
  unfold text
  cases parts x with
  | notANumber => exact .inl (by decide)
  | infinity s => cases s <;> exact .inl (by decide)
  | zero s =>
    refine .inr fun c => mem_signed fun c hc => ?_
    rw [List.mem_singleton.1 hc]
    exact .inl rfl
  | finite s m e hm =>
    exact .inr fun c => mem_signed fun c => isDigit_or_of_mem_positional keepsValue_trimZeros

end Calculator.Double
