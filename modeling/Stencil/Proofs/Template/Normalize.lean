import Stencil.Proofs.Eval.Cost
import Stencil.Proofs.Template.Limit
import Stencil.Template.Basic

/-!
# Limits that do not count

Limits on depth and on operations are read only as far as they count, so they may be normalized or
not. Main statement: `Limits.normalize_parse`: the same holds of a limit on length unless it is
negative, in which case it refuses every template where its normal form refuses none.
-/

namespace Stencil

/-- A limit that is not a number or negative does not count. -/
lemma effective_eq_none {q : Quantity} (h : q.isNaN ∨ q.lt (.whole 0)) :
    effective (some q) = none := by
  rw [effective, Option.filter_some, if_neg]
  intro hle
  obtain hnan | hlt := h
  · rw [(Quantity.not_isNaN_of_le hle).2] at hnan
    cases hnan
  · rw [Quantity.not_lt_of_le hle] at hlt
    cases hlt

/-- A limit that is given counts, is not a number, or is negative. -/
lemma effective_cases (q : Quantity) :
    effective (some q) = some q ∨ q.isNaN ∨ q.lt (.whole 0) := by
  rw [effective, Option.filter_some, Quantity.le]
  cases q.isNaN with
  | true => exact .inr (.inl rfl)
  | false =>
    cases q.lt (.whole 0) with
    | true => exact .inr (.inr rfl)
    | false => exact .inl rfl

/-- What is not a number is exceeded by no count. -/
lemma Quantity.not_lt_of_isNaN {q : Quantity} (h : q.isNaN) (n : Nat) : q.lt n = false := by
  cases q with
  | whole => cases h
  | other x => cases x <;> first | rfl | cases h

section

variable {limit limit' : Option Quantity}

lemma Expr.parse_of_effective (h : effective limit = effective limit') (source : Text) :
    parse source limit = parse source limit' := by
  unfold parse
  rw [h]

lemma Expr.parseSegment_of_effective (h : effective limit = effective limit') (opening : Nat)
    (inside : Cursor) : parseSegment opening inside limit = parseSegment opening inside limit' := by
  unfold parseSegment
  rw [h]

/-- The loop over the segments of a template hands the limit on to their expressions. -/
lemma Element.parseFrom_of_effective (h : effective limit = effective limit') (size o : Nat)
    (rest : Text) : parseFrom size limit o rest = parseFrom size limit' o rest := by
  induction hlen : rest.length using Nat.strong_induction_on generalizing o rest with
  | _ n ih =>
    subst hlen
    cases hinside : (Gap.of rest).inside with
    | none => rw [parseFrom_none hinside, parseFrom_none hinside]
    | some inside =>
      have hlt : inside.length < rest.length := Gap.length_inside hinside
      have hmore (stop : Nat) : parseFrom size limit stop
            (inside.drop (stop - (o + (Gap.of rest).width + 2))) =
          parseFrom size limit' stop (inside.drop (stop - (o + (Gap.of rest).width + 2))) := by
        apply ih _ _ stop _ rfl
        rw [List.length_drop]
        omega
      rw [parseFrom_some hinside, parseFrom_some hinside, Expr.parseSegment_of_effective h]
      simp only [hmore]

lemma Element.parse_of_effective (h : effective limit = effective limit') (source : Text)
    (length : Option Quantity) : parse source length limit = parse source length limit' := by
  unfold parse
  rw [parseFrom_of_effective h]

/-- That a template is too long is found before its segments are read. -/
lemma Element.parseFrom_ne_tooLong {size o : Nat} {rest : Text} {q : Quantity} {n : Nat} :
    parseFrom size limit o rest ≠ .error (.tooLong q n) := by
  intro h
  have hcurbed := parseFrom_curbed (laxer_none limit) size o rest (Nat.le_refl _)
  rw [h] at hcurbed
  generalize parseFrom size none o rest = outcome at hcurbed
  cases hcurbed with
  | malformed hfault => cases hfault

lemma Element.parse_ne_tooLong {source : Text} {q : Quantity} {n : Nat} :
    parse source none limit ≠ .error (.tooLong q n) := parseFrom_ne_tooLong

end

/-- A limit on length that is not negative may be normalized. -/
lemma Element.parse_effective_length {length : Option Quantity}
    (h : ∀ q, length = some q → q.lt (.whole 0) = false) (source : Text)
    (limit : Option Quantity) : parse source (effective length) limit = parse source length limit := by
  cases length with
  | none => rfl
  | some q =>
    obtain hq | hnan | hneg := effective_cases q
    · rw [hq]
    · rw [effective_eq_none (.inl hnan), parse_within (Quantity.not_lt_of_isNaN hnan _)]
      rfl
    · rw [h q rfl] at hneg
      cases hneg

/-- To normalize limits changes no outcome, with one exception: a negative limit on length refuses
every template, and its normal form refuses none for its length. All other limits that are negative
or not numbers are as good as none. -/
theorem Limits.normalize_parse (l : Limits) (source : Text) :
    (Element.parse source l.normalize.length l.normalize.depth =
        Element.parse source l.length l.depth ↔
      ∀ q, l.length = some q → q.lt (.whole 0) = false) ∧
    (∀ q, l.length = some q → q.lt (.whole 0) →
      Element.parse source l.length l.depth = .error (.tooLong q source.length)) ∧
    (∀ r, Template.parse source r l.normalize = Template.parse source r l) ∧
    Expr.parse source l.normalize.depth = Expr.parse source l.depth ∧
    (∀ (e : Expr) c r t, (e.eval ⟨c, r, l.normalize.operations⟩).runFrom t =
      (e.eval ⟨c, r, l.operations⟩).runFrom t) ∧
    ∀ q : Quantity, q.isNaN ∨ q.lt (.whole 0) →
      Limits.normalize ⟨some q, some q, some q⟩ = {} ∧
      (q.isNaN → ∀ depth, Element.parse source (some q) depth = Element.parse source none depth) ∧
      (∀ length, Element.parse source length (some q) = Element.parse source length none) ∧
      Expr.parse source (some q) = Expr.parse source none ∧
      ∀ (e : Expr) c r t,
        (e.eval ⟨c, r, some q⟩).runFrom t = (e.eval ⟨c, r, none⟩).runFrom t := by
  have hdepth := effective_effective l.depth
  have hrefuses (q : Quantity) (hq : l.length = some q) (hneg : q.lt (.whole 0)) :
      Element.parse source l.length l.depth = .error (.tooLong q source.length) := by
    rw [hq]
    exact Element.parse_tooLong (Quantity.lt_mono hneg (Nat.zero_le _)) _
  refine ⟨⟨?_, ?_⟩, hrefuses, ?_, Expr.parse_of_effective hdepth source, ?_, ?_⟩
  · intro h q hq
    rw [Bool.eq_false_iff]
    intro hneg
    have hlength : l.normalize.length = none := by
      rw [normalize, hq]
      exact effective_eq_none (.inr hneg)
    rw [hlength, hrefuses q hq hneg] at h
    exact Element.parse_ne_tooLong h
  · intro h
    exact (Element.parse_of_effective hdepth source _).trans
      (Element.parse_effective_length h source l.depth)
  · intro r
    have hnormal : l.normalize.normalize = l.normalize := by
      simp only [normalize, effective_effective]
    unfold Template.parse
    rw [hnormal]
  · intro e c r t
    rw [normalize, e.eval_effective l.operations]
  · intro q hvoid
    have hnone : effective (some q) = effective none := effective_eq_none hvoid
    refine ⟨?_, ?_, ?_, Expr.parse_of_effective hnone source, ?_⟩
    · simp only [normalize, hnone]
      rfl
    · intro hnan depth
      rw [Element.parse_within (Quantity.not_lt_of_isNaN hnan _)]
      rfl
    · exact Element.parse_of_effective hnone source
    · intro e c r t
      rw [e.eval_effective (some q), hnone]
      rfl

theorem Limits.normalize_parse_negative :
    let l : Limits := ⟨some (.whole (-1)), some (.other .nan), some (.whole (-5))⟩
    let e : Expr := .literal ⟨0, 4⟩ .null "null"
    let c : Context := ⟨none, [], [], [], [], []⟩
    Element.parse "a" l.length l.depth = .error (.tooLong (.whole (-1)) 1) ∧
    Element.parse "a" l.normalize.length l.normalize.depth ≠ Element.parse "a" l.length l.depth ∧
    Element.parse "a" none l.depth = Element.parse "a" none none ∧
    (e.eval ⟨c, .unbound, l.operations⟩).runFrom ⟨7, []⟩ = (.ok .null, ⟨8, []⟩) := by
  intro l e c
  obtain ⟨hiff, hrefuses, -⟩ := normalize_parse l "a"
  obtain ⟨-, -, -, -, -, hvoid⟩ := normalize_parse l "a"
  have hneg : (Quantity.whole (-1)).lt (.whole 0) := rfl
  obtain ⟨-, -, hdepth, -, -⟩ := hvoid (.other .nan) (.inl rfl)
  obtain ⟨-, -, -, -, hrun⟩ := hvoid (.whole (-5)) (.inr rfl)
  refine ⟨hrefuses _ rfl hneg, ?_, hdepth none, hrun e c .unbound _⟩
  intro h
  have := hiff.1 h _ rfl
  rw [hneg] at this
  cases this

/-- A template that is refused for a negative limit on its length is accepted once the limit is
normalized. -/
theorem Limits.normalize_negative :
    let l : Limits := ⟨some (.whole (-1)), none, none⟩
    Element.parse "a" l.length l.depth = .error (.tooLong (.whole (-1)) 1) ∧
      Element.parse "a" l.normalize.length l.normalize.depth = .ok [.text "a"] := by
  intro l
  have htext : Element.parseFrom 1 none 0 "a" = .ok [.text "a"] := Element.parseFrom_none rfl
  exact ⟨rfl, htext⟩

end Stencil
