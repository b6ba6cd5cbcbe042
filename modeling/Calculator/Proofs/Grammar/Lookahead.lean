import Calculator.Proofs.Grammar.Causes
import Calculator.Proofs.Grammar.Stepwise
import Calculator.Proofs.Tokens.Pieces

/-!
# Rejections are final

A text is rejected as soon as enough of it has been read, and nothing behind that matters any more.

`Cursor.after source n` is the cursor that has stepped over `n` tokens; with the one in front of it,
`n + 1` have been read. A rejected text is left at such a cursor (`exists_after`), and a text that
starts with the same `n + 1` tokens is rejected alike (`evaluate_of_take_eq`). In particular a text
can be cut off behind the last token that has been read, and go on in any way that leaves this token
as it is (`exists_cut`).
-/

namespace Calculator

open Grammar

variable {env : Environment} {source source' : String} {before rest : List Token} {here : Token}
  {r : Rejection} {n : Nat}

/-! ### Cursors behind some tokens -/

namespace Cursor

/-- **The cursor that has stepped over `n` tokens of a text.** -/
def after (source : String) : Nat → Cursor
  | 0 => .ofString source
  | n + 1 => (after source n).advance

theorem after_eq (source : String) (n : Nat) :
    after source n = ⟨(tokens source).drop n, source.utf8ByteSize⟩ := by
  induction n with
  | zero => rfl
  | succ n ih =>
    rw [after, ih, advance, List.tail_drop]

theorem ahead_after (source : String) (n : Nat) : (after source n).ahead = (tokens source).drop n :=
  congrArg ahead (after_eq source n)

theorem take_append_ahead (source : String) (n : Nat) :
    (tokens source).take n ++ (after source n).ahead = tokens source := by
  rw [ahead_after, List.take_append_drop]

theorem after_cases (source : String) (n : Nat) :
    ((after source n).ahead = [] ∧ (after source n).current = .finish source.utf8ByteSize) ∨
      ∃ rest, (after source n).ahead = (after source n).current :: rest ∧
        (after source n).current.kind ≠ .finish := by
  have hmem : ∀ token ∈ (tokens source).drop n, token ∈ tokens source :=
    fun token => List.mem_of_mem_drop
  rw [after_eq]
  cases hdrop : (tokens source).drop n with
  | nil => exact Or.inl ⟨rfl, rfl⟩
  | cons token rest =>
    rw [hdrop] at hmem
    exact Or.inr ⟨rest, rfl, kind_ne_finish (hmem token List.mem_cons_self)⟩

theorem take_tokenize (hn : n ≤ (tokens source).length) :
    (tokenize source).take (n + 1) = (tokens source).take n ++ [(after source n).current] := by
  obtain ⟨following, htokens, -⟩ := exists_following (take_append_ahead source n).symm
  have hcurrent : (after source n).current =
      front (after source n).ahead source.utf8ByteSize := by
    rw [after_eq]
    rfl
  have hlen : ((tokens source).take n).length = n := List.length_take_of_le hn
  rw [← hcurrent, List.append_cons] at htokens
  rw [htokens, List.take_left' (by simp [hlen])]

end Cursor

theorem exists_after (h : evaluate env source = .error r) : ∃ n ≤ (tokens source).length,
    (Rule.complete env).run (.ofString source) = .error r (.after source n) := by
  have hgone := (Rule.Stepwise.complete env).suffix (.ofString source)
  unfold evaluate at h
  rw [EStateM.run] at h ⊢
  cases hrun : Rule.complete env (.ofString source) with
  | ok value d =>
    rw [hrun] at h
    cases h
  | error e d =>
    rw [hrun] at h hgone
    obtain rfl : e = r := by simpa using h
    obtain ⟨ahead, size⟩ := d
    obtain ⟨hsuffix, rfl⟩ := hgone
    have hahead := List.suffix_iff_eq_drop.1 hsuffix
    refine ⟨(tokens source).length - ahead.length, Nat.sub_le _ _, ?_⟩
    rw [Cursor.after_eq]
    exact congrArg (fun ts => EStateM.Result.error e (Cursor.mk ts _)) hahead

/-! ### Texts that start with the same tokens -/

/-- **What has been read decides.** -/
theorem evaluate_of_take_eq (hn : n ≤ (tokens source).length)
    (hrun : (Rule.complete env).run (.ofString source) = .error r (.after source n))
    (htake : (tokenize source').take (n + 1) = (tokenize source).take (n + 1)) :
    evaluate env source' = .error r := by
  have hts := Cursor.take_append_ahead source n
  -- The other text starts with the tokens before the cursor and the one in front of it.
  have hsource' := (List.take_append_drop (n + 1) (tokenize source')).symm
  rw [htake, Cursor.take_tokenize hn, List.append_assoc, List.singleton_append] at hsource'
  rcases tokens_of_tokenize hsource' with ⟨hcurrent, hbefore⟩ | ⟨rest', hsource'⟩
  · -- Both texts are at their end.
    rcases Cursor.after_cases source n with ⟨hahead, hend⟩ | ⟨rest, -, hkind⟩
    · have hsize : source'.utf8ByteSize = source.utf8ByteSize :=
        congrArg Token.offset (hcurrent.symm.trans hend)
      have hcursor : Cursor.ofString source' = .ofString source := by
        unfold Cursor.ofString
        rw [hahead, List.append_nil] at hts
        rw [hbefore, hts, hsize]
      unfold evaluate
      rw [hcursor, hrun]
    · rw [hcurrent] at hkind
      exact absurd rfl hkind
  · rcases Cursor.after_cases source n with ⟨-, hend⟩ | ⟨rest, hahead, -⟩
    · have hmem : (Cursor.after source n).current ∈ tokens source' := by
        rw [hsource']
        exact List.mem_append_right _ List.mem_cons_self
      rw [hend] at hmem
      exact absurd rfl (kind_ne_finish hmem)
    · rw [hahead] at hts
      rw [EStateM.run, Cursor.ofString, ← hts] at hrun
      obtain ⟨d, hstuck⟩ := (Rule.Stepwise.complete env).error_of_stuck hrun hahead rest'
        source'.utf8ByteSize
      unfold evaluate
      rw [EStateM.run, Cursor.ofString, hsource', hstuck]

/-- **A text can be cut off behind a token**, and go on behind a space. -/
theorem exists_cut (h : tokens source = before ++ here :: rest) :
    ∃ front behind : String, source = front ++ behind ∧ front.utf8ByteSize = here.stop ∧
      ∀ more, (tokenize (front ++ " " ++ more)).take (before.length + 1) = before ++ [here] := by
  obtain ⟨front, behind, hcs, hstop, hscan⟩ := exists_scan_eq_append h
  refine ⟨.ofList front, .ofList behind, ?_, ?_, fun more => ?_⟩
  · rw [← String.ofList_append, ← hcs, String.ofList_toList]
  · rw [← hstop, Nat.zero_add]
    rfl
  · have htext : (String.ofList front ++ " " ++ more).toList = front ++ ' ' :: more.toList := by
      simp
    have hblank : Lexeme.isPart ' ' = false := by decide
    unfold tokenize tokens
    rw [htext, scan_append hblank, hscan, List.append_assoc, List.take_left' (by simp)]

/-- **Rejections are final.** When a text is rejected, `n` of its tokens have been stepped over and
the next one has been read. Every text that starts with the same `n + 1` tokens is rejected with the
same flaw at the same place, also one that goes on in another way behind the last of them. -/
theorem rejection_final (h : evaluate env source = .error r) :
    ∃ n ≤ (tokens source).length,
      (Rule.complete env).run (.ofString source) = .error r (.after source n) ∧
      (∀ source', (tokenize source').take (n + 1) = (tokenize source).take (n + 1) →
        evaluate env source' = .error r) ∧
      ((Cursor.after source n).current.kind ≠ .finish → ∃ front behind : String,
        source = front ++ behind ∧ front.utf8ByteSize = (Cursor.after source n).position ∧
          ∀ more, evaluate env (front ++ " " ++ more) = .error r) := by
  obtain ⟨n, hn, hrun⟩ := exists_after h
  have hsame : ∀ source', (tokenize source').take (n + 1) = (tokenize source).take (n + 1) →
      evaluate env source' = .error r := fun source' => evaluate_of_take_eq hn hrun
  refine ⟨n, hn, hrun, hsame, fun hkind => ?_⟩
  rcases Cursor.after_cases source n with ⟨-, hend⟩ | ⟨rest, hahead, -⟩
  · rw [hend] at hkind
    exact absurd rfl hkind
  · have hts := Cursor.take_append_ahead source n
    have hlen : ((tokens source).take n).length = n := List.length_take_of_le hn
    rw [hahead] at hts
    obtain ⟨front, behind, hcut, hstop, hmore⟩ := exists_cut hts.symm
    refine ⟨front, behind, hcut, hstop, fun more => hsame _ ?_⟩
    rw [hlen] at hmore
    rw [hmore, Cursor.take_tokenize hn]

/-- A division by zero is rejected once the token behind it has been read. -/
theorem rejection_final_div :
    evaluate {} "1 / 0 + )" = .error ⟨.operation .divisionByZero, 2⟩ ∧
    evaluate {} "1 / 0 + (2 ^" = .error ⟨.operation .divisionByZero, 2⟩ ∧
    ∃ front : String, front.utf8ByteSize = 7 ∧
      evaluate {} (front ++ " " ++ "sin )") = .error ⟨.operation .divisionByZero, 2⟩ := by
  have h : evaluate {} "1 / 0 + )" = .error ⟨.operation .divisionByZero, 2⟩ := by decide +kernel
  obtain ⟨n, hn, hrun, hsame, hcut⟩ := rejection_final h
  have hleft : (Rule.stop ((Rule.complete {}).run (.ofString "1 / 0 + )"))).ahead.length = 2 := by
    decide +kernel
  have hlen : (tokens "1 / 0 + )").length = 5 := by decide +kernel
  obtain rfl : n = 3 := by
    have hdrop : ((tokens "1 / 0 + )").drop n).length = 2 := by
      rwa [hrun, Rule.stop, Cursor.ahead_after] at hleft
    rw [List.length_drop] at hdrop
    omega
  obtain ⟨front, -, -, hfront, hmore⟩ := hcut (by decide +kernel)
  refine ⟨h, hsame _ (by decide +kernel), front, ?_, hmore _⟩
  rw [hfront]
  decide +kernel

end Calculator
