import Stencil.Proofs.Grammar.Level
import Stencil.Proofs.Grammar.Limit
import Stencil.Proofs.Grammar.Nest
import Stencil.Proofs.Template.Elements
import Stencil.Proofs.Token.Layout

/-!
# Templates under limits

Limits only ever turn an outcome of parsing into the fault of the limit. Main statement:
`Element.parse_limits`. A template has no more tokens than units, so its own length bounds the depth
that its expressions can reach.
-/

namespace Stencil

namespace Cursor

lemma length_tokens (c : Cursor) : c.tokens.list.length ≤ c.rest.length := by
  fun_induction tokens c with
  | case1 c fault c' h => exact Nat.zero_le _
  | case2 c t c' h ht => exact Nat.zero_le _
  | case3 c t c' h ht more ih =>
    have hmore : more.list.length ≤ c'.rest.length := ih
    have hlt : c'.rest.length < c.rest.length := length_next h (by simpa using ht)
    rw [List.length_cons]
    omega

lemma isLimit_last {c : Cursor} {fault : SyntaxFault} (h : c.tokens.last = .error fault) :
    fault.isLimit = false := by
  obtain ⟨m, p, rfl⟩ := lexical_last h
  rfl

end Cursor

lemma SyntaxFault.diagnostic_of_isLimit {fault : SyntaxFault} (h : fault.isLimit) (source : Text) :
    (fault.diagnostic source).category = .limit ∧
      (fault.diagnostic source).message = fault.message := by
  unfold diagnostic
  rw [if_pos h, Diagnostic.build]
  dsimp only
  split
  · exact ⟨rfl, rfl⟩
  · exact ⟨rfl, rfl⟩

/-- The second limit allows whatever the first does. -/
def Laxer (limit limit' : Option Quantity) : Prop :=
  ∀ depth, Within (effective limit) depth → Within (effective limit') depth

lemma laxer_none (limit : Option Quantity) : Laxer limit none := by
  intro depth _
  exact within_none

lemma laxer_of_le {x y : Quantity} (hx : (Quantity.whole 0).le x) (hle : x.le y) :
    Laxer (some x) (some y) := by
  intro depth hdepth q hq
  rw [eq_of_effective hq, Bool.eq_false_iff]
  intro hlt
  have := hdepth x (effective_of_le hx)
  rw [Quantity.lt_of_le_of_lt hle hlt] at this
  cases this

section

variable {limit limit' : Option Quantity}

/-- The inside of braces under a limit and under a laxer one. -/
lemma Expr.parseSegment_curbed (h : Laxer limit limit') (opening : Nat) (inside : Cursor) :
    Curbed (effective limit) (1 + inside.rest.length) (parseSegment opening inside limit)
      (parseSegment opening inside limit') := by
  have hlength := inside.length_tokens
  have hlast := @Cursor.isLimit_last inside
  unfold parseSegment
  generalize inside.tokens = tokens at hlength hlast ⊢
  obtain ⟨ts, last⟩ := tokens
  have hsetting : Setting.Laxer ⟨last, some opening, effective limit⟩ (effective limit') :=
    ⟨h _, hlast⟩
  have hwhole := (parseWhole_curbed hsetting .close .closing ts).mono
    (Nat.add_le_add_left hlength 1)
  dsimp only
  cases last with
  | error fault =>
    dsimp only
    split
    · exact .malformed (hlast rfl)
    · apply hwhole.seq (fun _ hw => by rw [hw]; rfl)
      · intro _ hw
        exact congrArg (Except.bind · fun _ => .error fault) hw
      · intro e hw hw'
        have hw'' : parseWhole ⟨.error fault, some opening, effective limit'⟩ .close .closing ts =
          .ok e := hw'
        rw [hw, hw'']
        exact .malformed (hlast rfl)
  | ok close =>
    dsimp only
    split
    · exact .malformed rfl
    · apply hwhole.seq (fun _ hw => by rw [hw]; rfl)
      · intro _ hw
        exact congrArg (Except.map (·, close)) hw
      · intro e hw hw'
        have hw'' : parseWhole ⟨.ok close, some opening, effective limit'⟩ .close .closing ts =
          .ok e := hw'
        rw [hw, hw'']
        exact .value _

end

namespace Element

variable {limit limit' : Option Quantity}

/-- The loop over the segments of a template under a limit and under a laxer one. -/
lemma parseFrom_curbed (h : Laxer limit limit') {most : Nat} (size o : Nat) (rest : Text)
    (hmost : rest.length ≤ most) :
    Curbed (effective limit) (1 + most) (parseFrom size limit o rest)
      (parseFrom size limit' o rest) := by
  induction hlen : rest.length using Nat.strong_induction_on generalizing o rest with
  | _ n ih =>
    subst hlen
    cases hinside : (Gap.of rest).inside with
    | none =>
      rw [parseFrom_none hinside, parseFrom_none hinside]
      exact .value _
    | some inside =>
      have hlt : inside.length < rest.length := Gap.length_inside hinside
      rw [parseFrom_some hinside, parseFrom_some hinside]
      split
      · have hsegment := Expr.parseSegment_curbed h (o + (Gap.of rest).width)
          ⟨size, o + (Gap.of rest).width + 2, inside⟩
        replace hsegment := hsegment.mono (show 1 + inside.length ≤ 1 + most by omega)
        apply hsegment.seq (fun _ hs => by simp only [hs]) (fun _ hs => by simp only [hs])
        rintro ⟨expr, close⟩ hs hs'
        simp only [hs, hs']
        -- what follows the closing braces is shorter than what follows the opening ones
        have hdrop : (inside.drop (close.span.stop - (o + (Gap.of rest).width + 2))).length <
            rest.length := by
          rw [List.length_drop]
          omega
        apply (ih _ hdrop close.span.stop _ (by omega) rfl).seq (fun _ hm => by simp only [hm])
          (fun _ hm => by simp only [hm])
        intro more hm hm'
        simp only [hm, hm']
        exact .value _
      · exact .malformed rfl

lemma parse_tooLong {source : Text} {length : Quantity} (h : length.lt source.length)
    (limit : Option Quantity) :
    parse source (some length) limit = .error (.tooLong length source.length) := by
  unfold parse
  exact if_pos h

lemma parse_within {source : Text} {length : Quantity} (h : length.lt source.length = false)
    (limit : Option Quantity) :
    parse source (some length) limit = parseFrom source.length limit 0 source := by
  unfold parse
  dsimp only
  rw [h]
  rfl

lemma parse_curbed (h : Laxer limit limit') {source : Text} {length : Quantity}
    (hlength : length.lt source.length = false) :
    Curbed (effective limit) (1 + source.length) (parse source (some length) limit)
      (parse source (some length) limit') := by
  rw [parse_within hlength, parse_within hlength]
  exact parseFrom_curbed h source.length 0 source (Nat.le_refl _)

lemma parse_of_laxer (h : Laxer limit limit') (source : Text) (length : Quantity) :
    parse source (some length) limit = parse source (some length) limit' ∨
      ∃ o, parse source (some length) limit = .error (.tooDeep o) := by
  cases hlength : length.lt source.length with
  | true =>
    rw [parse_tooLong hlength, parse_tooLong hlength]
    exact .inl rfl
  | false => exact (parse_curbed h hlength).eq_or_deep

/-- A limit on depth that allows one level for each unit and one more is as good as none. -/
lemma parse_of_long {source : Text} {d : Quantity} (h : d.lt (1 + source.length : Nat) = false)
    (length : Quantity) :
    parse source (some length) (some d) = parse source (some length) none := by
  cases hlength : length.lt source.length with
  | true => rw [parse_tooLong hlength, parse_tooLong hlength]
  | false =>
    apply (parse_curbed (laxer_none _) hlength).eq_of_within
    intro q hq
    rwa [eq_of_effective hq]

lemma nest_of_parse {source : Text} {maxLength limit : Option Quantity} {els : List Element}
    (h : parse source maxLength limit = .ok els) {inner : Text} {expr : Expr} {span : Span}
    (hmem : .expression inner expr span ∈ els) : Within (effective limit) expr.nest := by
  obtain ⟨_, _, _, _, _, -, -, -, -, -, hts, hn⟩ := (parse_splits h).of_mem hmem
  exact hts.nest_within hn

/-- Limits only ever turn an outcome into the fault of the limit: a limit on length if it is
exceeded, and a limit on depth the more the smaller it is. Expressions that are accepted under a limit
on depth nest no deeper than it. -/
theorem parse_limits (source : Text) (length : Quantity) {depth : Quantity}
    (hdepth : (Quantity.whole 0).le depth) :
    (length.lt source.length →
      parse source (some length) (some depth) = .error (.tooLong length source.length)) ∧
    (length.lt source.length = false →
      (parse source (some length) (some depth) = parse source none none ∨
        ∃ o, parse source (some length) (some depth) = .error (.tooDeep o)) ∧
      ∃ n : Nat, ∀ d : Quantity, Quantity.le n d →
        parse source (some length) (some d) = parse source none none) ∧
    (∀ fault, parse source none none = .error fault → fault.isLimit = false) ∧
    (∀ d o, (Quantity.whole 0).le d → d.le depth →
      parse source (some length) (some depth) = .error (.tooDeep o) →
      ∃ o', parse source (some length) (some d) = .error (.tooDeep o')) ∧
    (∀ d els, depth.le d → parse source (some length) (some depth) = .ok els →
      parse source (some length) (some d) = .ok els) ∧
    (∀ els inner expr span, parse source (some length) (some depth) = .ok els →
      .expression inner expr span ∈ els → depth.lt expr.nest = false) ∧
    (∀ e, Expr.parse source (some depth) = .ok e → depth.lt e.nest = false) ∧
    (∀ o, ((SyntaxFault.tooDeep o).diagnostic source).category = .limit ∧
      ((SyntaxFault.tooDeep o).diagnostic source).message = "Maximum expression depth exceeded") ∧
    ((SyntaxFault.tooLong length source.length).diagnostic source).category = .limit ∧
      ((SyntaxFault.tooLong length source.length).diagnostic source).message =
        "Maximum template length exceeded" := by
  refine ⟨?_, ?_, ?_, ?_, ?_, ?_, ?_, ?_, SyntaxFault.diagnostic_of_isLimit rfl source⟩
  · intro hlength
    exact parse_tooLong hlength _
  · intro hlength
    have hnone : parse source (some length) none = parse source none none :=
      parse_within hlength none
    constructor
    · rw [← hnone]
      exact parse_of_laxer (laxer_none _) source length
    · refine ⟨1 + source.length, ?_⟩
      intro d hd
      rw [← hnone]
      exact parse_of_long (Quantity.not_lt_of_le hd) length
  · intro fault hfault
    have hcurbed := parseFrom_curbed (laxer_none none) source.length 0 source (Nat.le_refl _)
    rw [show parseFrom source.length none 0 source = .error fault from hfault] at hcurbed
    exact hcurbed.isLimit_of_within within_none
  · intro d o hd hle hdeep
    obtain heq | hdeep' := parse_of_laxer (laxer_of_le hd hle) source length
    · exact ⟨o, heq.trans hdeep⟩
    · exact hdeep'
  · intro d els hle hels
    obtain heq | ⟨o, hdeep⟩ := parse_of_laxer (laxer_of_le hdepth hle) source length
    · exact heq.symm.trans hels
    · rw [hels] at hdeep
      cases hdeep
  · intro els inner expr span hels hmem
    exact nest_of_parse hels hmem depth (effective_of_le hdepth)
  · intro e he
    exact Expr.nest_of_parse he depth (effective_of_le hdepth)
  · intro o
    exact SyntaxFault.diagnostic_of_isLimit rfl source

theorem parse_limits_nested :
    (Quantity.whole 0).le (.whole 1) ∧
    parse "\x7b\x7b! true\x7d\x7d" none none = .ok [.expression "! true"
      (.unary ⟨2, 8⟩ .not (.literal ⟨4, 8⟩ (.bool true) "true")) ⟨0, 10⟩] ∧
    ∃ o, parse "\x7b\x7b! true\x7d\x7d" (some (.whole 10)) (some (.whole 1)) =
      .error (.tooDeep o) := by
  have htrue : Spelled 3 (" " ++ "true") [⟨.name "true", "true", ⟨4, 8⟩⟩] :=
    .pad (Text.forall_mem (by decide)) (.single ⟨_, _, rfl, rfl⟩ rfl)
  have hspelled : Spelled 2 ("!" ++ (" " ++ "true"))
      [⟨.sign .bang, "!", ⟨2, 3⟩⟩, ⟨.name "true", "true", ⟨4, 8⟩⟩] :=
    .cons ⟨_, _, rfl, rfl⟩ rfl (tame_cons rfl) htrue
  have hderives : Derives 1 [⟨.sign .bang, "!", ⟨2, 3⟩⟩, ⟨.name "true", "true", ⟨4, 8⟩⟩]
      (Level.unary.phrase (.unary ⟨2, 8⟩ .not (.literal ⟨4, 8⟩ (.bool true) "true"))) :=
    .unary rfl (.atom (.literal rfl))
  have hwithin : Within (effective none) (1 + 1) := within_none
  have hsplits := Splits.expression (o := 0) .done hspelled hderives.lower_pipeline hwithin
    (.text .done)
  have hnone : parse "\x7b\x7b! true\x7d\x7d" none none = .ok [.expression "! true"
      (.unary ⟨2, 8⟩ .not (.literal ⟨4, 8⟩ (.bool true) "true")) ⟨0, 10⟩] :=
    parseFrom_iff.2 hsplits
  have hdepth : (Quantity.whole 0).le (.whole 1) := rfl
  obtain ⟨-, hshort, -, -, -, hnest, -⟩ :=
    parse_limits "\x7b\x7b! true\x7d\x7d" (.whole 10) hdepth
  refine ⟨hdepth, hnone, ?_⟩
  obtain ⟨hsame | hdeep, -⟩ := hshort rfl
  · -- the same outcome would nest deeper than the limit
    have := hnest _ _ _ _ (hsame.trans hnone) (List.mem_singleton.2 rfl)
    cases this
  · exact hdeep

end Element

end Stencil
