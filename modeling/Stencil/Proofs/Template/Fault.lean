import Stencil.Proofs.Grammar.Fault
import Stencil.Proofs.Number.Literal
import Stencil.Proofs.Source.Place
import Stencil.Proofs.Template.Elements

/-!
# How parsing fails

Main statement: `Element.parse_declared`. Parsing a template or an expression fails only with malformed
syntax or an exceeded limit, at an offset of the source. The scanner goes forward with every token,
and the parser with every call.
-/

namespace Stencil

/-- What is told of the fault is malformed syntax or an exceeded limit, at an offset of the source or
at its end. -/
structure SyntaxFault.Declared (source : Text) (fault : SyntaxFault) : Prop where
  category : (∃ position byteOffset,
      (fault.diagnostic source).category = .parse position byteOffset) ∨
    (fault.diagnostic source).category = .limit
  index : ∃ i, (fault.diagnostic source).index = some i ∧ (Quantity.whole 0).le i ∧
    i.le source.length

namespace Quantity

lemma le_of_lt {q : Quantity} {n : Nat} (h : q.lt n) : q.le n := by
  have hnot {i j : Int} (hij : i < j) : (!decide (j < i)) = true := by
    rw [decide_eq_false (Int.not_lt.2 (Int.le_of_lt hij)), Bool.not_false]
  cases q with
  | whole m => exact hnot (of_decide_eq_true h)
  | other x =>
    cases x with
    | nan => cases h
    | infinite s =>
      cases s with
      | false => cases h
      | true => rfl
    | finite s m => exact hnot (of_decide_eq_true h)

lemma whole_le {m n : Nat} (h : m ≤ n) : (m : Quantity).le n := by
  have hnot : ¬ (n : Int) < m := Int.not_lt.2 (Int.ofNat_le.2 h)
  exact congrArg not (decide_eq_false hnot)

end Quantity

namespace SyntaxFault

variable {source : Text} {fault : SyntaxFault}

lemma declared_of_le (h : (Quantity.whole 0).le fault.index) (hle : fault.index.le source.length) :
    fault.Declared source := by
  obtain ⟨category, hint, hcategory, hdiagnostic⟩ := diagnostic_located source h
  refine ⟨?_, fault.index, ?_, h, hle⟩
  · rw [hdiagnostic]
    exact hcategory
  · rw [hdiagnostic]

lemma LiesWithin.declared (h : fault.LiesWithin source.length) : fault.Declared source := by
  obtain ⟨i, hi, hindex⟩ := h
  apply declared_of_le
  · rw [hindex]
    exact Quantity.whole_le (Nat.zero_le i)
  · rw [hindex]
    exact Quantity.whole_le hi

end SyntaxFault

namespace Expr

variable {source : Text} {limit : Option Quantity} {fault : SyntaxFault}

/-- The fault of a whole expression is met in its tokens. -/
lemma parseWhole_meets {s : Setting} {ts : List Token} {final expected}
    (h : parseWhole s final expected ts = .error fault) : s.Meets ts fault := by
  have hpipeline : Met s ts (parsePipeline s 1 ts) := Call.answer_met (.pipeline 1 ts)
  unfold parseWhole at h
  split at h
  · next hdeep =>
    cases h
    exact Setting.meets_tooDeep hdeep
  · split at h
    · next heq =>
      cases h
      rw [heq] at hpipeline
      cases hpipeline with
      | failed h => exact h
    · next step heq =>
      rw [heq] at hpipeline
      cases hpipeline with
      | read hrest =>
        split at h
        · split at h
          · cases h
          · cases h
            exact (Setting.meets_refuse expected []).mono List.nil_suffix
        · cases h
          exact (Setting.meets_refuse expected _).mono hrest

lemma parse_raisedIn (h : parse source limit = .error fault) : fault.RaisedIn source := by
  have hread := Cursor.readIn_tokens source 0
  unfold parse at h
  generalize (Cursor.start source 0).tokens = tokens at h hread
  obtain ⟨ts, last⟩ := tokens
  dsimp only at h
  split at h
  · cases h
    exact .misread (hread.fault _ rfl)
  · split at h
    · cases h
      exact .empty (Nat.zero_le _)
    · exact (parseWhole_meets h).raisedIn hread nofun
  · exact (parseWhole_meets h).raisedIn hread nofun

lemma parse_inside (h : parse source limit = .error fault) : fault.LiesWithin source.length :=
  (parse_raisedIn h).liesWithin

/-- The inside of braces fails with a fault of the source. -/
lemma parseSegment_raisedIn {opening : Nat} (ho : opening ≤ source.length)
    (h : parseSegment opening (Cursor.start source (opening + 2)) limit = .error fault) :
    fault.RaisedIn source := by
  have hread := Cursor.readIn_tokens source (opening + 2)
  unfold parseSegment at h
  generalize (Cursor.start source (opening + 2)).tokens = tokens at h hread
  obtain ⟨ts, last⟩ := tokens
  have hopening : ∀ o, some opening = some o → o ≤ source.length := by
    rintro _ ⟨⟩
    exact ho
  dsimp only at h
  split at h
  · split at h
    · cases h
      exact .misread (hread.fault _ rfl)
    · cases hw : parseWhole ⟨.error _, some opening, effective limit⟩ .close .closing ts with
      | error fault' =>
        rw [hw] at h
        cases h
        exact (parseWhole_meets hw).raisedIn hread hopening
      | ok e =>
        rw [hw] at h
        cases h
        exact .misread (hread.fault _ rfl)
  · split at h
    · cases h
      exact .empty ho
    · cases hw : parseWhole ⟨.ok _, some opening, effective limit⟩ .close .closing ts with
      | error fault' =>
        rw [hw] at h
        cases h
        exact (parseWhole_meets hw).raisedIn hread hopening
      | ok e =>
        rw [hw] at h
        cases h

/-- The closing braces stand after the opening ones, inside the source. -/
lemma parseSegment_forward {opening : Nat} {e : Expr} {close : Token}
    (h : parseSegment opening (Cursor.start source (opening + 2)) limit = .ok (e, close)) :
    opening + 2 < close.span.stop ∧ close.span.stop ≤ source.length := by
  obtain ⟨t, after, ts, n, hdrop, rfl, -⟩ := Element.parseSegment_closing.1 h
  have hlength := congrArg List.length hdrop
  have htwo : ("\x7d\x7d" : Text).length = 2 := rfl
  rw [List.length_drop, List.length_append, List.length_append, htwo] at hlength
  rw [Cursor.stop_closing]
  omega

end Expr

namespace Element

variable {source : Text} {limit : Option Quantity} {fault : SyntaxFault}

/-- The loop over the segments of a template fails with a fault of the source. -/
lemma parseFrom_raisedIn {o : Nat} (ho : o ≤ source.length)
    (h : parseFrom source.length limit o (source.drop o) = .error fault) :
    fault.RaisedIn source := by
  induction hleft : source.length - o using Nat.strongRecOn generalizing o with
  | ind left ih =>
    subst hleft
    obtain ⟨g, after, hrest, -, hwidth, ⟨hnone, -⟩ | ⟨inside, hsome, rfl⟩⟩ :=
      Gap.of_skips (source.drop o)
    · rw [parseFrom_none hnone] at h
      cases h
    · have hlength := congrArg List.length hrest
      have htwo : ("\x7b\x7b" : Text).length = 2 := rfl
      rw [List.length_drop, List.length_append, List.length_append, htwo] at hlength
      have hinside : inside = source.drop (o + g.length + 2) := by
        rw [Nat.add_assoc, ← List.drop_drop, hrest, ← List.drop_drop, List.drop_left]
        rfl
      rw [parseFrom_some hsome, hwidth, hinside] at h
      split at h
      · split at h
        · next hsegment =>
          cases h
          exact Expr.parseSegment_raisedIn (by omega) hsegment
        · next e close hsegment =>
          obtain ⟨hlt, hle⟩ := Expr.parseSegment_forward hsegment
          have hdrop : (source.drop (o + g.length + 2)).drop (close.span.stop - (o + g.length + 2)) =
              source.drop close.span.stop := by
            rw [List.drop_drop]
            congr 1
            omega
          rw [hdrop] at h
          split at h
          · next hmore =>
            cases h
            exact ih _ (by omega) hle hmore rfl
          · cases h
      · cases h
        exact .unclosed (by omega)

/-- A template is refused with a fault of the source, or because it is longer than allowed. -/
lemma parse_raisedIn {maxLength : Option Quantity} (h : parse source maxLength limit = .error fault) :
    fault.RaisedIn source ∨ ∃ most, maxLength = some most ∧ fault = .tooLong most source.length ∧
      most.lt source.length := by
  unfold parse at h
  split at h
  · split at h
    · next hlt =>
      cases h
      exact .inr ⟨_, rfl, rfl, hlt⟩
    · exact .inl (parseFrom_raisedIn (Nat.zero_le _) h)
  · exact .inl (parseFrom_raisedIn (Nat.zero_le _) h)

lemma parse_declares {maxLength : Option Quantity}
    (hlength : ∀ limit, maxLength = some limit → (Quantity.whole 0).le limit)
    (h : parse source maxLength limit = .error fault) : fault.Declared source := by
  obtain hraised | ⟨most, hmost, rfl, hlt⟩ := parse_raisedIn h
  · exact hraised.liesWithin.declared
  · exact SyntaxFault.declared_of_le (hlength _ hmost) (Quantity.le_of_lt hlt)

/-- Parsing fails only with malformed syntax or an exceeded limit, at an offset of the source, if the
limit on length is not negative. A number literal is never refused by the check of the exact range.
Each token but the end of the source takes the scanner forward, and so do the braces of an expression.
What a call of the parser answers is made of the answers to calls before it, for fewer tokens or for
as many and a form that binds tighter, and nothing but the parser answers so. -/
theorem parse_declared (source : Text) {maxLength : Option Quantity} (maxDepth : Option Quantity)
    (hlength : ∀ limit, maxLength = some limit → (Quantity.whole 0).le limit) :
    ((∃ els, parse source maxLength maxDepth = .ok els) ∨
        ∃ fault, parse source maxLength maxDepth = .error fault ∧ fault.Declared source) ∧
      ((∃ e, Expr.parse source maxDepth = .ok e) ∨
        ∃ fault, Expr.parse source maxDepth = .error fault ∧ fault.Declared source) ∧
      (∀ text, buildLiteral text = .ok (numberLiteral? text)) ∧
      (∀ o t c, (Cursor.start source o).next = (.ok t, c) → t.lexeme ≠ .eof → o < c.offset) ∧
      (∀ opening e close,
        Expr.parseSegment opening (Cursor.start source (opening + 2)) maxDepth = .ok (e, close) →
          opening + 2 < close.span.stop ∧ close.span.stop ≤ source.length) ∧
      ∀ s : Setting,
        (∀ {α ts} (c : Call α ts), c.answer s = c.body s fun c' _ => c'.answer s) ∧
        ∀ f : {α : Type} → {ts : List Token} → Call α ts → Parse α ts,
          (∀ {α ts} (c : Call α ts), f c = c.body s fun c' _ => f c') →
            ∀ {α ts} (c : Call α ts), f c = c.answer s := by
  refine ⟨?_, ?_, buildLiteral_eq, ?_, fun opening e close => Expr.parseSegment_forward,
    fun s => ⟨Call.answer_eq s, fun f hf => Call.answer_unique hf⟩⟩
  · cases h : parse source maxLength maxDepth with
    | ok els => exact .inl ⟨els, rfl⟩
    | error fault => exact .inr ⟨fault, rfl, parse_declares hlength h⟩
  · cases h : Expr.parse source maxDepth with
    | ok e => exact .inl ⟨e, rfl⟩
    | error fault => exact .inr ⟨fault, rfl, (Expr.parse_inside h).declared⟩
  · intro o t c h ht
    obtain ⟨r, o', hnext, hcall⟩ := Cursor.next_call source o
    rw [hnext] at h
    cases h
    obtain ⟨_, ⟨⟩⟩ | ⟨_, ⟨⟩, heof⟩ | hlt := hcall.forward
    · exact absurd heof ht
    · exact hlt

theorem parse_declared_unclosed :
    let source : Text := "a \x7b\x7b b"
    (∀ limit, some (Quantity.whole 9) = some limit → (Quantity.whole 0).le limit) ∧
    parse source (some (.whole 9)) none = .error (.unclosed 2) ∧
    (SyntaxFault.unclosed 2).Declared source := by
  intro source
  have hlength (limit : Quantity) (h : some (Quantity.whole 9) = some limit) :
      (Quantity.whole 0).le limit := by
    cases h
    rfl
  have hunclosed : parse source (some (.whole 9)) none = .error (.unclosed 2) := by
    change parseFrom 6 none 0 source = _
    rw [parseFrom_some (show (Gap.of source).inside = some " b" from rfl)]
    rfl
  refine ⟨hlength, hunclosed, ?_⟩
  obtain ⟨⟨els, h⟩ | ⟨fault, h, hdeclared⟩, -⟩ := parse_declared source none hlength
  · rw [hunclosed] at h
    cases h
  · rw [hunclosed] at h
    cases h
    exact hdeclared

end Element

end Stencil
