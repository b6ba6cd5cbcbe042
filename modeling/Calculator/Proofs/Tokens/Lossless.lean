import Calculator.Cursor
import Calculator.Proofs.Tokens.Pieces
import Mathlib.Data.List.TakeDrop

/-!
# The tokens of a text lose and invent nothing

A text is its tokens, each where it says it is, with blanks between them.

* `exists_leads_of_mem_scan`: a token is a lexeme of the text, and starts at its offset;
* `pairwise_stop_le_offset`: a token ends before the next one starts;
* `isBlank_of_not_covered`: a character that is in no token is a blank;
* `Reader.next_eq`: pulling a token is stepping a cursor over it, so the tokens that are pulled are
  those of the text, and then its end for ever (`Reader.pull_eq`).
-/

namespace Calculator

open Lexeme (isBlank isBlank_iff Leads)

variable {c : Char} {cs pre post : List Char} {source : String} {offset i : Nat} {token : Token}

/-! ### Tokens in the text -/

/-- **A token is a lexeme of the text**, and starts at its offset. -/
theorem exists_leads_of_mem_scan (h : token ∈ Token.scan cs offset 0) :
    ∃ pre w post, cs = pre ++ (w ++ post) ∧ Leads w post ∧
      token = ⟨.ofLexeme w, String.ofList w, offset + bytes pre⟩ := by
  induction cs using Lexeme.induct generalizing offset with
  | nil => cases h
  | blank c cs hc ih =>
    rw [scan_blank hc] at h
    obtain ⟨pre, w, post, rfl, hw, rfl⟩ := ih h
    refine ⟨c :: pre, w, post, rfl, hw, ?_⟩
    rw [bytes_cons, Nat.add_assoc]
  | lexeme w cs hw ih =>
    rw [scan_leads hw] at h
    rcases List.mem_cons.1 h with rfl | h
    · exact ⟨[], w, cs, rfl, hw, rfl⟩
    · obtain ⟨pre, v, post, rfl, hv, rfl⟩ := ih h
      refine ⟨w ++ pre, v, post, (List.append_assoc ..).symm, hv, ?_⟩
      rw [bytes_append, Nat.add_assoc]

theorem exists_leads_of_mem_tokens (h : token ∈ tokens source) :
    ∃ pre w post, source.toList = pre ++ (w ++ post) ∧ Leads w post ∧
      token = ⟨.ofLexeme w, String.ofList w, bytes pre⟩ := by
  obtain ⟨pre, w, post, hcs, hw, rfl⟩ := exists_leads_of_mem_scan h
  refine ⟨pre, w, post, hcs, hw, ?_⟩
  rw [Nat.zero_add]

theorem exists_eq_append_of_mem (h : token ∈ tokenize source) :
    ∃ pre post : String, source = pre ++ token.text ++ post ∧ pre.utf8ByteSize = token.offset := by
  rcases List.mem_append.1 h with h | h
  · obtain ⟨pre, w, post, hcs, -, rfl⟩ := exists_leads_of_mem_tokens h
    refine ⟨.ofList pre, .ofList post, ?_, rfl⟩
    rw [← String.ofList_append, ← String.ofList_append, List.append_assoc, ← hcs,
      String.ofList_toList]
  · rw [List.mem_singleton.1 h]
    exact ⟨source, "", by simp [Token.finish], rfl⟩

theorem text_of_mem_tokens (h : token ∈ tokens source) :
    token.text ≠ "" ∧ ∀ c ∈ token.text.toList, isBlank c = false := by
  obtain ⟨pre, w, post, -, hw, rfl⟩ := exists_leads_of_mem_tokens h
  refine ⟨fun hempty => hw.ne_nil (String.ofList_eq_empty_iff.1 hempty), fun c hc => ?_⟩
  rw [String.toList_ofList] at hc
  exact hw.isBlank_of_mem hc

theorem stop_le_of_mem_tokens (h : token ∈ tokens source) : token.stop ≤ source.utf8ByteSize := by
  obtain ⟨pre, w, post, hcs, -, rfl⟩ := exists_leads_of_mem_tokens h
  have hsize := congrArg bytes hcs
  rw [bytes_toList, bytes_append, bytes_append] at hsize
  show bytes pre + bytes w ≤ source.utf8ByteSize
  omega

/-! ### What stands between tokens -/

/-- **A token ends before the next one starts.** -/
theorem pairwise_stop_le_offset (source : String) :
    (tokenize source).Pairwise fun t u => t.stop ≤ u.offset := by
  have hscan (cs : List Char) (offset : Nat) :
      (Token.scan cs offset 0).Pairwise fun t u => t.stop ≤ u.offset := by
    induction cs using Lexeme.induct generalizing offset with
    | nil => exact List.Pairwise.nil
    | blank c cs hc ih =>
      rw [scan_blank hc]
      exact ih _
    | lexeme w cs hw ih =>
      rw [scan_leads hw]
      exact List.pairwise_cons.2 ⟨fun u hu => le_offset_of_mem_scan hu, ih _⟩
  refine List.pairwise_append.2 ⟨hscan _ _, List.pairwise_singleton _ _, fun t ht u hu => ?_⟩
  rw [List.mem_singleton.1 hu]
  exact stop_le_of_mem_tokens ht

theorem utf8Size_of_isBlank (h : isBlank c = true) : c.utf8Size = 1 := by
  rcases Lexeme.isBlank_cases h with rfl | rfl | rfl | rfl | rfl <;> rfl

/-- **A byte that is in no token is a blank.** -/
theorem isBlank_of_not_covered (hi : i < bytes cs)
    (h : ∀ t ∈ Token.scan cs offset 0, ¬ (t.offset ≤ offset + i ∧ offset + i < t.stop)) :
    ∃ pre c post, cs = pre ++ c :: post ∧ bytes pre = i ∧ isBlank c = true := by
  induction cs using Lexeme.induct generalizing offset i with
  | nil => exact absurd hi (Nat.not_lt_zero i)
  | blank c cs hc ih =>
    have hsize := utf8Size_of_isBlank hc
    rw [bytes_cons] at hi
    rw [scan_blank hc] at h
    by_cases hzero : i = 0
    · exact ⟨[], c, cs, rfl, hzero.symm, hc⟩
    · obtain ⟨j, rfl⟩ : ∃ j, i = c.utf8Size + j := ⟨i - c.utf8Size, by omega⟩
      rw [← Nat.add_assoc] at h
      obtain ⟨pre, d, post, rfl, hpre, hd⟩ := ih (by omega) h
      exact ⟨c :: pre, d, post, rfl, by rw [bytes_cons, hpre], hd⟩
  | lexeme w cs hw ih =>
    rw [bytes_append] at hi
    rw [scan_leads hw] at h
    obtain ⟨hfirst, hrest⟩ := List.forall_mem_cons.1 h
    have hge : bytes w ≤ i := by
      by_contra hlt
      refine hfirst ⟨Nat.le_add_right _ _, ?_⟩
      show offset + i < offset + bytes w
      omega
    obtain ⟨j, rfl⟩ : ∃ j, i = bytes w + j := ⟨i - bytes w, by omega⟩
    rw [← Nat.add_assoc] at hrest
    obtain ⟨pre, d, post, rfl, hpre, hd⟩ := ih (by omega) hrest
    exact ⟨w ++ pre, d, post, (List.append_assoc ..).symm, by rw [bytes_append, hpre], hd⟩

theorem exists_blank_of_not_covered (hi : i < source.utf8ByteSize)
    (h : ∀ t ∈ tokens source, ¬ (t.offset ≤ i ∧ i < t.stop)) :
    ∃ pre c post, source.toList = pre ++ c :: post ∧ bytes pre = i ∧ isBlank c = true := by
  have hcover : ∀ t ∈ Token.scan source.toList 0 0, ¬ (t.offset ≤ 0 + i ∧ 0 + i < t.stop) := by
    intro t ht
    rw [Nat.zero_add]
    exact h t ht
  rw [← bytes_toList] at hi
  exact isBlank_of_not_covered hi hcover

/-! ### Tokens that are pulled -/

theorem getD_tokenize (source : String) (i : Nat) :
    (tokenize source).getD i (.finish source.utf8ByteSize) =
      ((tokens source).drop i).headD (.finish source.utf8ByteSize) := by
  rw [List.getD_eq_getElem?_getD, List.headD_eq_head?_getD, List.head?_drop]
  unfold tokenize
  rcases Nat.lt_or_ge i (tokens source).length with hi | hi
  · rw [List.getElem?_append_left hi]
  · rw [List.getElem?_append_right hi, List.getElem?_eq_none hi]
    cases i - (tokens source).length <;> rfl

namespace Reader

/-- The cursor in front of the tokens that a reader has not pulled. -/
def cursor (r : Reader) : Cursor := ⟨Token.scan r.rest r.position 0, r.position + bytes r.rest⟩

theorem cursor_ofString (source : String) : (ofString source).cursor = .ofString source := by
  unfold cursor ofString Cursor.ofString
  rw [Nat.zero_add, bytes_toList]
  rfl

theorem blank_or_leads (cs : List Char) : (∀ c ∈ cs, isBlank c = true) ∨
    ∃ ds w rest, cs = ds ++ (w ++ rest) ∧ (∀ c ∈ ds, isBlank c = true) ∧ Leads w rest := by
  induction cs using Lexeme.induct with
  | nil => exact Or.inl (List.forall_mem_nil _)
  | blank c cs hc ih =>
    rcases ih with hcs | ⟨ds, w, rest, rfl, hds, hw⟩
    · exact Or.inl (List.forall_mem_cons.2 ⟨hc, hcs⟩)
    · exact Or.inr ⟨c :: ds, w, rest, rfl, List.forall_mem_cons.2 ⟨hc, hds⟩, hw⟩
  | lexeme w cs hw ih => exact Or.inr ⟨[], w, cs, rfl, List.forall_mem_nil _, hw⟩

theorem next_of_blank {ds : List Char} (hds : ∀ c ∈ ds, isBlank c = true) (p : Nat) :
    next ⟨ds, p⟩ = (.finish (p + bytes ds), ⟨[], p + bytes ds⟩) := by
  have hspan : ds.span isBlank = (ds, []) := by
    rw [List.span_eq_takeWhile_dropWhile, List.takeWhile_eq_self_iff.2 hds,
      List.dropWhile_eq_nil_iff.2 hds]
  unfold next
  rw [hspan]
  rfl

theorem next_of_leads {ds w rest : List Char} (hds : ∀ c ∈ ds, isBlank c = true)
    (hw : Leads w rest) (p : Nat) : next ⟨ds ++ (w ++ rest), p⟩ =
      (⟨.ofLexeme w, String.ofList w, p + bytes ds⟩, ⟨rest, p + bytes ds + bytes w⟩) := by
  have hfront := ofFront_leads hw (p + bytes ds)
  have hlen := hw.length
  have hne := hw.ne_nil
  cases w with
  | nil => exact absurd rfl hne
  | cons c w =>
    have hc : ¬ isBlank c = true := by simp [hw.start c rfl]
    have hspan : (ds ++ (c :: w ++ rest)).span isBlank = (ds, c :: w ++ rest) := by
      rw [List.span_eq_takeWhile_dropWhile, List.takeWhile_append_of_pos hds,
        List.dropWhile_append_of_pos hds, List.cons_append, List.takeWhile_cons_of_neg hc,
        List.dropWhile_cons_of_neg hc, List.append_nil]
    unfold next
    rw [hspan]
    show (Token.ofFront (c :: w ++ rest) (p + bytes ds), (⟨(c :: w ++ rest).drop
      (Lexeme.length (c :: w ++ rest)), (Token.ofFront (c :: w ++ rest) (p + bytes ds)).stop⟩ :
        Reader)) = _
    rw [hfront, hlen, List.drop_left]
    rfl

/-- **Pulling a token is stepping a cursor over it.** -/
theorem next_eq (r : Reader) : r.next.1 = r.cursor.current ∧ r.next.2.cursor = r.cursor.advance ∧
    r.next.2.position = r.cursor.position := by
  obtain ⟨cs, p⟩ := r
  rcases blank_or_leads cs with hcs | ⟨ds, w, rest, rfl, hds, hw⟩
  · have hscan : Token.scan cs p 0 = [] := by
      have hscan := scan_blanks hcs [] p
      rwa [List.append_nil] at hscan
    unfold cursor
    rw [next_of_blank hcs, hscan]
    exact ⟨rfl, rfl, rfl⟩
  · have hscan := (scan_blanks hds (w ++ rest) p).trans (scan_leads hw _)
    have hsize : p + bytes (ds ++ (w ++ rest)) = p + bytes ds + bytes w + bytes rest := by
      rw [bytes_append, bytes_append]
      omega
    unfold cursor
    rw [next_of_leads hds hw, hscan, hsize]
    exact ⟨rfl, rfl, rfl⟩

theorem pull_eq (r : Reader) (n : Nat) : r.pull n = (List.range n).map fun i =>
    let t := (r.cursor.ahead.drop i).headD (.finish r.cursor.size)
    (t, t.stop) := by
  induction n generalizing r with
  | zero => rfl
  | succ n ih =>
    obtain ⟨htoken, hcursor, hposition⟩ := r.next_eq
    have hahead : r.next.2.cursor.ahead = r.cursor.ahead.tail := by rw [hcursor]; rfl
    have hsize : r.next.2.cursor.size = r.cursor.size := by rw [hcursor]; rfl
    show (r.next.1, r.next.2.position) :: r.next.2.pull n = _
    rw [ih, hahead, hsize, htoken, hposition, List.range_succ_eq_map, List.map_cons, List.map_map]
    congr 1
    simp [Function.comp_def, List.drop_tail]

end Reader

/-- **The tokens of a text lose and invent nothing.** They end with the end of the text, and only
there. Each is found where it says, and ends before the next one starts; a byte that is in none is a
blank, and no blank is in one. Pulling tokens one by one gives the same ones, and then the end for
ever; the position is always the byte after the last one. -/
theorem tokenize_lossless (source : String) :
    (∃ ts, tokenize source = ts ++ [⟨.finish, "", source.utf8ByteSize⟩] ∧
      ∀ t ∈ ts, t.kind ≠ .finish) ∧
    (tokenize source).Pairwise (fun t u => t.offset < u.offset ∧ t.stop ≤ u.offset) ∧
    (∀ t ∈ tokenize source, (⟨t.offset⟩ : String.Pos.Raw).IsValid source ∧
      ∃ pre post : String, source = pre ++ t.text ++ post ∧ pre.utf8ByteSize = t.offset) ∧
    (∀ t ∈ tokenize source, t.kind ≠ .finish →
      t.text ≠ "" ∧ ∀ c ∈ t.text.toList, c ∉ [' ', '\t', '\r', '\n', '\x0c']) ∧
    (∀ i < source.utf8ByteSize, (∀ t ∈ tokenize source, ¬ (t.offset ≤ i ∧ i < t.stop)) →
      ∃ pre c post, source.toList = pre ++ c :: post ∧ (String.ofList pre).utf8ByteSize = i ∧
        c ∈ [' ', '\t', '\r', '\n', '\x0c']) ∧
    ∀ n, (Reader.ofString source).pull n = (List.range n).map fun i =>
      let t := (tokenize source).getD i ⟨.finish, "", source.utf8ByteSize⟩
      (t, t.offset + t.text.utf8ByteSize) := by
  refine ⟨⟨tokens source, rfl, fun t => kind_ne_finish⟩, ?_, ?_, ?_, ?_, ?_⟩
  · exact (pairwise_tokenize source).and (pairwise_stop_le_offset source)
  · intro t ht
    obtain ⟨pre, post, heq, hpre⟩ := exists_eq_append_of_mem ht
    refine ⟨String.Pos.Raw.isValid_iff_exists_append.2 ⟨pre, t.text ++ post, ?_, ?_⟩,
      pre, post, heq, hpre⟩
    · rw [heq, String.append_assoc]
    · rw [← hpre]
      rfl
  · intro t ht hk
    rcases List.mem_append.1 ht with ht | ht
    · obtain ⟨hne, hblank⟩ := text_of_mem_tokens ht
      refine ⟨hne, fun c hc hmem => ?_⟩
      have hc := hblank c hc
      rw [isBlank_iff.2 hmem] at hc
      cases hc
    · rw [List.mem_singleton.1 ht] at hk
      exact absurd rfl hk
  · intro i hi hcover
    obtain ⟨pre, c, post, hcs, hpre, hc⟩ := exists_blank_of_not_covered hi fun t ht =>
      hcover t (List.mem_append_left _ ht)
    exact ⟨pre, c, post, hcs, hpre, isBlank_iff.1 hc⟩
  · intro n
    rw [Reader.pull_eq, Reader.cursor_ofString]
    refine List.map_congr_left fun i _ => ?_
    exact congrArg (fun t : Token => (t, t.stop)) (getD_tokenize source i).symm

end Calculator
