import Calculator.Complex.Text
import Calculator.Proofs.Complexes.Sorting
import Calculator.Proofs.Complexes.Symmetries
import Calculator.Proofs.Doubles.Texts

/-!
# The text of a complex number is faithful

The text of a complex number has one of four forms, which are told apart by a blank inside, the sign
after it, and the letter at the end. So both parts can be read back from it, up to the signs of
zeros, and two texts are equal exactly if the numbers are. A negative imaginary part is written
without its sign, which stands between the parts; a NaN is written there as if it were negative.

* `read`: the complex number that a text says;
* `read_toString`: the text of a complex number says that number, up to the signs of zeros;
* `toString_congr`: the signs of zeros are not written;
* `toString_faithful`: equal texts are texts of equal numbers.
-/

namespace Calculator.Complex

open Double (TotalOrder text read_text text_cases same_zero)

variable {a b : Complex} {x y : Float} {cs ds : List Char} {order : TotalOrder}

/-! ### Reading -/

/-- The imaginary part after a sign, which belongs to it. -/
def readSigned (sign : Char) (y : Float) : Float := if sign = '-' then -y else y

/-- **The complex number that a text says.** -/
def read (cs : List Char) : Complex :=
  match cs.span (· != ' ') with
  | (re, ' ' :: sign :: ' ' :: im) => ⟨Double.read re, readSigned sign (Double.read im.dropLast)⟩
  | (part, _) =>
    if part.getLast? = some 'i' then ⟨0.0, Double.read part.dropLast⟩ else ⟨Double.read part, 0.0⟩

/-- The text of a double has no blank, and does not end in the letter of the imaginary unit. -/
theorem text_spelling (x : Float) :
    ' ' ∉ (text x).toList ∧ (text x).toList.getLast? ≠ some 'i' := by
  rcases text_cases x with hword | hchars
  · have hwords : ∀ t ∈ ["NaN", "inf", "-inf"],
        ' ' ∉ t.toList ∧ t.toList.getLast? ≠ some 'i' := by decide
    exact hwords _ hword
  · refine ⟨fun hblank => ?_, fun hlast => ?_⟩
    · exact absurd (hchars ' ' hblank) (by decide)
    · exact absurd (hchars 'i' (List.mem_of_getLast? hlast)) (by decide)

theorem span_blank (h : ' ' ∉ cs) (hds : ∀ c ∈ ds.head?, c = ' ') :
    (cs ++ ds).span (· != ' ') = (cs, ds) := by
  refine Decimal.span_append (fun c hc => bne_iff_ne.2 fun hblank => h (hblank ▸ hc)) fun c hc => ?_
  rw [hds c hc]
  rfl

theorem read_part (h : ' ' ∉ cs) : read cs =
    if cs.getLast? = some 'i' then ⟨0.0, Double.read cs.dropLast⟩ else ⟨Double.read cs, 0.0⟩ := by
  have hspan : (cs ++ []).span (· != ' ') = (cs, []) := span_blank h nofun
  rw [List.append_nil] at hspan
  unfold read
  rw [hspan]

theorem read_real (x : Float) : read (text x).toList = ⟨x, 0.0⟩ := by
  obtain ⟨hblank, hlast⟩ := text_spelling x
  rw [read_part hblank, if_neg hlast, read_text]

theorem read_imaginary (y : Float) : read (text y ++ "i").toList = ⟨0.0, y⟩ := by
  have hi : "i".toList = ['i'] := rfl
  have hblank : ' ' ∉ (text y).toList ++ ['i'] := by simpa using (text_spelling y).1
  rw [String.toList_append, hi, read_part hblank, if_pos List.getLast?_concat,
    List.dropLast_concat, read_text]

/-- **Both parts are read**, the second one with the sign between them. -/
theorem read_both {separator : String} {sign : Char} (x y : Float)
    (h : separator.toList = [' ', sign, ' ']) :
    read (text x ++ separator ++ text y ++ "i").toList = ⟨x, readSigned sign y⟩ := by
  have hi : "i".toList = ['i'] := rfl
  have hspan (cs : List Char) :
      ((text x).toList ++ ' ' :: cs).span (· != ' ') = ((text x).toList, ' ' :: cs) :=
    span_blank (text_spelling x).1 fun c hc => (Option.some.inj hc).symm
  rw [String.toList_append, String.toList_append, String.toList_append, h, hi, List.append_assoc,
    List.append_assoc]
  unfold read
  rw [List.cons_append, List.cons_append, List.cons_append, List.nil_append, hspan]
  show mk (Double.read (text x).toList)
    (readSigned sign (Double.read ((text y).toList ++ ['i']).dropLast)) = _
  rw [List.dropLast_concat, read_text, read_text]

/-! ### Faithfulness -/

/-- **The text of a complex number says that number**, up to the signs of zeros. -/
theorem read_toString (a : Complex) : Same (read a.toString.toList) a := by
  unfold Complex.toString
  by_cases him : (a.im == 0.0) = true
  · rw [if_pos him]
    by_cases hre : (a.re == 0.0) = true
    · have hzero : text 0.0 = "0" := rfl
      rw [if_pos hre, ← hzero, read_real]
      exact ⟨same_zero hre, same_zero him⟩
    · rw [if_neg hre, read_real]
      exact ⟨.refl _, same_zero him⟩
  · rw [if_neg him]
    by_cases hre : (a.re == 0.0) = true
    · rw [if_pos hre, read_imaginary]
      exact ⟨same_zero hre, .refl _⟩
    · rw [if_neg hre]
      by_cases hpos : 0.0 < a.im
      · rw [if_pos hpos]
        exact same_of_eq (read_both a.re a.im (show " + ".toList = [' ', '+', ' '] from rfl))
      · have hread := read_both a.re (-a.im) (show " - ".toList = [' ', '-', ' '] from rfl)
        have hsign : readSigned '-' (-a.im) = a.im := Double.neg_neg a.im
        rw [hsign] at hread
        rw [if_neg hpos]
        exact same_of_eq hread

theorem toString_congr (h : Same a b) : a.toString = b.toString := by
  unfold Complex.toString
  rw [← h.im.beq_zero_eq, ← h.re.beq_zero_eq]
  by_cases him : (a.im == 0.0) = true
  · rw [if_pos him, if_pos him]
    by_cases hre : (a.re == 0.0) = true
    · rw [if_pos hre, if_pos hre]
    · rw [if_neg hre, if_neg hre, h.re.eq_of_ne_zero hre]
  · rw [if_neg him, if_neg him, h.im.eq_of_ne_zero him]
    by_cases hre : (a.re == 0.0) = true
    · rw [if_pos hre, if_pos hre]
    · rw [if_neg hre, if_neg hre, h.re.eq_of_ne_zero hre]

theorem equalBy_iff_same (ho : order.Lawful) : equalBy order a b = true ↔ Same a b := by
  rw [equalBy_iff ho, ← equalBy_iff TotalOrder.lawful_standard]
  exact beq_iff_same

/-- **Equal texts are texts of equal numbers**, and the other way around, for all doubles: a NaN
equals a NaN, and zeros are equal whatever their signs are. -/
theorem toString_faithful (ho : order.Lawful) (a b : Complex) :
    a.toString = b.toString ↔ equalBy order a b = true := by
  rw [equalBy_iff_same ho]
  refine ⟨fun h => ?_, toString_congr⟩
  have ha := read_toString a
  rw [h] at ha
  exact ha.symm.trans (read_toString b)

/-- Zeros with different signs beside a NaN have one text, but the parts are told apart. -/
theorem toString_faithful_standard : TotalOrder.standard.Lawful ∧
    Complex.toString ⟨-0.0, Double.nan⟩ = Complex.toString ⟨0.0, Double.nan⟩ ∧
    Complex.toString ⟨Double.nan, 0.0⟩ ≠ Complex.toString ⟨0.0, Double.nan⟩ := by
  refine ⟨TotalOrder.lawful_standard, ?_, ?_⟩
  · exact (toString_faithful TotalOrder.lawful_standard _ _).2 rfl
  · intro h
    have hequal := (toString_faithful TotalOrder.lawful_standard _ _).1 h
    cases hequal

end Calculator.Complex
