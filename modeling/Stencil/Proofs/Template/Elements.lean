import Mathlib.Data.List.Basic
import Stencil.Proofs.Grammar.Acceptance
import Stencil.Proofs.Token.Run
import Stencil.Template.Element

/-!
# How templates split

What stands between the expressions of a template, and the elements of a template as a relation.
Main statement: `Element.parseFrom_iff` says that the scanning loop yields exactly the elements of
the relation `Element.Splits`.
-/

namespace Stencil

namespace Gap

/-- Met from left to right, all opening braces of a text stand directly after a backslash. -/
inductive Escaped : Text → Prop where
  | plain {g : Text} : ¬ ("\x7b\x7b" : Text) <:+: g → Escaped g
  | brace {g rest : Text} :
    ¬ ("\x7b\x7b" : Text) <:+: g → Escaped rest → Escaped (g ++ ("\\\x7b\x7b" ++ rest))

/-- The text without the backslashes before opening braces. -/
def unescape : Text → Text
  | [] => []
  | u :: rest =>
    if ("\\\x7b\x7b" : Text).isPrefixOf (u :: rest) then unescape rest else u :: unescape rest

example : unescape "a\\\x7b\x7bb" = ("a\x7b\x7bb" : Text) := by decide

lemma Escaped.unit {u : CodeUnit} {g : Text} (h : Escaped g)
    (hu : ¬ ("\x7b\x7b" : Text) <+: u :: g) : Escaped (u :: g) := by
  cases h with
  | plain hg => exact .plain fun h => (List.infix_cons_iff.1 h).elim hu hg
  | @brace g rest hg hrest =>
    refine .brace (g := u :: g) (fun h => (List.infix_cons_iff.1 h).elim (fun h => hu ?_) hg) hrest
    exact h.trans ⟨"\\\x7b\x7b" ++ rest, rfl⟩

/-- The scan passes over `g`, which stands for the value, as far as `after`. -/
inductive Skips (after : Text) : Text → Text → Prop where
  | done : Skips after [] []
  | escape {g value} :
    Skips after g value →
    Skips after ("\\\x7b\x7b" ++ g) ("\x7b\x7b" ++ value)
  | unit {u g value} :
    ¬ ("\\\x7b\x7b" : Text) <+: u :: (g ++ after) →
    ¬ ("\x7b\x7b" : Text) <+: u :: (g ++ after) →
    Skips after g value →
    Skips after (u :: g) (u :: value)

lemma prefix_open {u v : CodeUnit} {t : Text} :
    ("\x7b\x7b" : Text) <+: u :: v :: t ↔ u = '\x7b' ∧ v = '\x7b' := by
  have h : ("\x7b\x7b" : Text) = [CodeUnit.ofBasic '\x7b', CodeUnit.ofBasic '\x7b'] := rfl
  rw [h, List.cons_prefix_cons, List.cons_prefix_cons]
  simp [eq_comm]

lemma prefix_escape {u v w : CodeUnit} {t : Text} :
    ("\\\x7b\x7b" : Text) <+: u :: v :: w :: t ↔ u = '\\' ∧ v = '\x7b' ∧ w = '\x7b' := by
  have h : ("\\\x7b\x7b" : Text) =
      [CodeUnit.ofBasic '\\', CodeUnit.ofBasic '\x7b', CodeUnit.ofBasic '\x7b'] := rfl
  rw [h, List.cons_prefix_cons, List.cons_prefix_cons, List.cons_prefix_cons]
  simp [eq_comm]

/-- No text is longer than one that it begins. -/
lemma not_begins {p t : Text} (h : t.length < p.length) : ¬ p <+: t :=
  fun hp => Nat.not_le_of_lt h hp.length_le

/-- A gap reaches as far as the first opening braces, or to the end. -/
lemma of_skips (t : Text) :
    ∃ g after, t = g ++ after ∧ Skips after g (of t).value ∧ (of t).width = g.length ∧
      ((of t).inside = none ∧ after = [] ∨
        ∃ inside, (of t).inside = some inside ∧ after = "\x7b\x7b" ++ inside) := by
  fun_induction of t with
  | case1 => exact ⟨[], [], rfl, .done, rfl, .inl ⟨rfl, rfl⟩⟩
  | case2 u =>
    have hu : Skips [] [u] [u] :=
      .unit (not_begins (show 1 < 3 by decide)) (not_begins (show 1 < 2 by decide)) .done
    exact ⟨[u], [], rfl, hu, rfl, .inl ⟨rfl, rfl⟩⟩
  | case3 u v huv =>
    obtain ⟨rfl, rfl⟩ := huv
    exact ⟨[], _, rfl, .done, rfl, .inr ⟨[], rfl, rfl⟩⟩
  | case4 u v huv =>
    have hu : Skips [] [u, v] [u, v] :=
      .unit (not_begins (show 2 < 3 by decide)) (mt prefix_open.1 huv)
        (.unit (not_begins (show 1 < 3 by decide)) (not_begins (show 1 < 2 by decide)) .done)
    exact ⟨[u, v], [], rfl, hu, rfl, .inl ⟨rfl, rfl⟩⟩
  | case5 u v w rest huvw ih =>
    obtain ⟨rfl, rfl, rfl⟩ := huvw
    obtain ⟨g, after, rfl, hg, hwidth, hend⟩ := ih
    exact ⟨"\\\x7b\x7b" ++ g, after, rfl, .escape hg, congrArg (· + 3) hwidth, hend⟩
  | case6 u v w rest _ huv =>
    obtain ⟨rfl, rfl⟩ := huv
    exact ⟨[], _, rfl, .done, rfl, .inr ⟨w :: rest, rfl, rfl⟩⟩
  | case7 u v w rest hescape hopen ih =>
    obtain ⟨g, after, hrest, hg, hwidth, hend⟩ := ih
    refine ⟨u :: g, after, congrArg (u :: ·) hrest, .unit ?_ ?_ hg, congrArg (· + 1) hwidth, hend⟩
    · rw [← hrest]; exact mt prefix_escape.1 hescape
    · rw [← hrest]; exact mt prefix_open.1 hopen

lemma of_open (inside : Text) : of ("\x7b\x7b" ++ inside) = ⟨[], 0, some inside⟩ := by
  cases inside <;> rfl

lemma of_unit {u : CodeUnit} {t : Text} (hescape : ¬ ("\\\x7b\x7b" : Text) <+: u :: t)
    (hopen : ¬ ("\x7b\x7b" : Text) <+: u :: t) : of (u :: t) = (of t).push u := by
  match t with
  | [] => rfl
  | [v] => exact if_neg (mt prefix_open.2 hopen)
  | v :: w :: t => rw [of, if_neg (mt prefix_escape.2 hescape), if_neg (mt prefix_open.2 hopen)]

namespace Skips

variable {after g value : Text}

/-- A gap begins with escaped braces, or with a unit that begins neither those nor braces. -/
lemma uncons {u : CodeUnit} (h : Skips after (u :: g) value) :
    (∃ g' value', u = '\\' ∧ g = "\x7b\x7b" ++ g' ∧ value = "\x7b\x7b" ++ value' ∧
      Skips after g' value') ∨
    ∃ value', ¬ ("\\\x7b\x7b" : Text) <+: u :: (g ++ after) ∧
      ¬ ("\x7b\x7b" : Text) <+: u :: (g ++ after) ∧ value = u :: value' ∧
      Skips after g value' := by
  generalize ht : u :: g = t at h
  cases h with
  | done => cases ht
  | @escape g' value' h =>
    cases ht
    exact .inl ⟨g', value', rfl, rfl, rfl, h⟩
  | unit hescape hopen h =>
    cases ht
    exact .inr ⟨_, hescape, hopen, rfl, h⟩

/-- No gap begins with opening braces. -/
lemma not_open {u : CodeUnit} (h : Skips after (u :: g) value) :
    ¬ ("\x7b\x7b" : Text) <+: u :: (g ++ after) := by
  obtain ⟨_, _, rfl, -⟩ | ⟨_, -, hopen, -⟩ := h.uncons
  · exact fun h => absurd (List.head_eq_of_cons_eq h.choose_spec) (by decide)
  · exact hopen

lemma escaped (h : Skips after g value) : Escaped g := by
  induction h with
  | done => exact .plain (by decide)
  | escape _ ih => exact .brace (g := []) (by decide) ih
  | @unit u g value _ hopen _ ih => exact ih.unit fun h => hopen (h.trans ⟨after, rfl⟩)

lemma value_eq (h : Skips after g value) : value = unescape g := by
  induction h with
  | done => rfl
  | @escape g value _ ih => rw [ih]; rfl
  | @unit u g value hescape _ _ ih =>
    have hg : ¬ ("\\\x7b\x7b" : Text).isPrefixOf (u :: g) = true :=
      fun h => hescape ((List.isPrefixOf_iff_prefix.1 h).trans ⟨after, rfl⟩)
    rw [unescape, if_neg hg, ih]

/-- Opening braces after a gap are not escaped. -/
lemma getLast?_ne {inside : Text} (h : Skips ("\x7b\x7b" ++ inside) g value) :
    g.getLast? ≠ some ('\\' : CodeUnit) := by
  induction h with
  | done => exact nofun
  | @escape g value _ ih =>
    cases g with
    | nil => decide
    | cons u g => rwa [List.getLast?_append_cons]
  | @unit u g value hescape _ _ ih =>
    cases g with
    | nil =>
      intro hu
      cases hu
      exact hescape ⟨inside, rfl⟩
    | cons v g => rwa [List.getLast?_cons_cons]

/-- Within three units of a gap nothing is seen of what stands behind the braces after it. -/
lemma prefix_reopen {p g x y : Text} {u : CodeUnit} (hp : p.length ≤ 3)
    (h : p <+: u :: (g ++ ("\x7b\x7b" ++ x))) : p <+: u :: (g ++ ("\x7b\x7b" ++ y)) := by
  have hcut (z : Text) : u :: (g ++ ("\x7b\x7b" ++ z)) = u :: (g ++ "\x7b\x7b") ++ z := by simp
  have hlong : 3 ≤ (u :: (g ++ "\x7b\x7b")).length := by
    have hbraces : ("\x7b\x7b" : Text).length = 2 := rfl
    rw [List.length_cons, List.length_append, hbraces]
    omega
  rw [hcut] at h ⊢
  have hbegins := List.prefix_of_prefix_length_le h (List.prefix_append _ x) (hp.trans hlong)
  exact hbegins.trans (List.prefix_append _ y)

/-- What stands behind the opening braces after a gap does not matter to it. -/
lemma reopen {x : Text} (h : Skips ("\x7b\x7b" ++ x) g value) (y : Text) :
    Skips ("\x7b\x7b" ++ y) g value := by
  induction h with
  | done => exact .done
  | escape _ ih => exact .escape ih
  | @unit u g value hescape hopen _ ih =>
    refine .unit ?_ ?_ ih
    · exact mt (prefix_reopen (by decide)) hescape
    · exact mt (prefix_reopen (by decide)) hopen

/-- The scan passes over a gap to what follows it. -/
lemma of_append {inside : Option Text} (h : Skips after g value) (ha : of after = ⟨[], 0, inside⟩) :
    of (g ++ after) = ⟨value, g.length, inside⟩ := by
  induction h with
  | done => exact ha
  | @escape g value _ ih =>
    have hof : of ("\\\x7b\x7b" ++ (g ++ after)) = (of (g ++ after)).pushBraces := rfl
    rw [List.append_assoc, hof, ih]
    rfl
  | unit hescape hopen _ ih =>
    rw [List.cons_append, of_unit hescape hopen, ih]
    rfl

end Skips

end Gap

namespace Element

/-- The elements of a text at an offset: gaps, and between them expressions in braces. -/
inductive Splits (limit : Option Quantity) : Nat → Text → List Element → Prop where
  | text {o g value} :
    Gap.Skips [] g value →
    Splits limit o g (ofText value)
  | expression {o g value t after ts n expr more} :
    Gap.Skips ("\x7b\x7b" ++ (t ++ ("\x7d\x7d" ++ after))) g value →
    Spelled (o + g.length + 2) t ts →
    Derives n ts (.pipeline expr) →
    Within (effective limit) (1 + n) →
    Splits limit (o + g.length + 2 + t.length + 2) after more →
    Splits limit o (g ++ ("\x7b\x7b" ++ (t ++ ("\x7d\x7d" ++ after))))
      (ofText value ++
        .expression t.trim expr ⟨o + g.length, o + g.length + 2 + t.length + 2⟩ :: more)

/-- An empty value is no element. -/
lemma ofText_cases (value : Text) :
    ofText value = [] ∨ ofText value = [.text value] ∧ value ≠ [] := by
  unfold ofText
  cases value with
  | nil => exact .inl rfl
  | cons u value => exact .inr ⟨rfl, List.cons_ne_nil _ _⟩

lemma hasClosing_append (t after : Text) : hasClosing (t ++ ("\x7d\x7d" ++ after)) = true := by
  induction t with
  | nil => rfl
  | cons u t ih =>
    cases hrest : t ++ ("\x7d\x7d" ++ after) with
    | nil => rw [hrest] at ih; cases ih
    | cons v rest =>
      rw [hrest] at ih
      rw [List.cons_append, hrest, hasClosing, ih, Bool.or_true]

/-- The inside of braces ends at the first closing braces that are a token. -/
lemma parseSegment_closing {opening size o inside limit e close} :
    Expr.parseSegment opening ⟨size, o, inside⟩ limit = .ok (e, close) ↔
      ∃ t after ts n, inside = t ++ ("\x7d\x7d" ++ after) ∧ close = Cursor.closing (o + t.length) ∧
        Spelled o t ts ∧ Derives n ts (.pipeline e) ∧ Within (effective limit) (1 + n) := by
  rw [Expr.parseSegment_iff]
  constructor
  · rintro ⟨ts, n, htokens, hclose, hts, hn⟩
    obtain ⟨t, after, rfl, ht, rfl⟩ := Cursor.tokens_close_iff.1 ⟨htokens, hclose⟩
    exact ⟨t, after, ts, n, rfl, rfl, ht, hts, hn⟩
  · rintro ⟨t, after, ts, n, rfl, rfl, ht, hts, hn⟩
    exact ⟨ts, n, ht.tokens_close, rfl, hts, hn⟩

/-- The closing braces part what stands before them from what follows. -/
lemma closing_cut (o : Nat) (t after : Text) :
    (t ++ ("\x7d\x7d" ++ after)).take ((Cursor.closing (o + t.length)).span.start - o) = t ∧
      (t ++ ("\x7d\x7d" ++ after)).drop ((Cursor.closing (o + t.length)).span.stop - o) =
        after := by
  have hstart : (Cursor.closing (o + t.length)).span.start - o = t.length :=
    Nat.add_sub_cancel_left ..
  have hstop : (Cursor.closing (o + t.length)).span.stop - o = t.length + 2 := by
    rw [← Nat.add_sub_cancel_left o (t.length + 2)]
    rfl
  rw [hstart, hstop, List.take_left, ← List.drop_drop, List.drop_left]
  exact ⟨rfl, rfl⟩

lemma parseFrom_none {size limit o rest} (h : (Gap.of rest).inside = none) :
    parseFrom size limit o rest = .ok (ofText (Gap.of rest).value) := by
  rw [parseFrom]
  split
  · rfl
  · next heq => rw [h] at heq; cases heq

lemma parseFrom_some {size limit o rest inside} (h : (Gap.of rest).inside = some inside) :
    parseFrom size limit o rest =
      if hasClosing inside then
        match Expr.parseSegment (o + (Gap.of rest).width)
            ⟨size, o + (Gap.of rest).width + 2, inside⟩ limit with
        | .error fault => .error fault
        | .ok (expr, close) =>
          match parseFrom size limit close.span.stop
              (inside.drop (close.span.stop - (o + (Gap.of rest).width + 2))) with
          | .error fault => .error fault
          | .ok more =>
            .ok (ofText (Gap.of rest).value ++
              .expression
                (Text.trim (inside.take (close.span.start - (o + (Gap.of rest).width + 2)))) expr
                ⟨o + (Gap.of rest).width, close.span.stop⟩ :: more)
      else .error (.unclosed (o + (Gap.of rest).width)) := by
  rw [parseFrom]
  split
  · next heq => rw [h] at heq; cases heq
  · next heq =>
    rw [h] at heq
    cases heq
    rfl

/-- The scanning loop yields the elements that a text splits into, and no others. -/
theorem parseFrom_iff {size limit o rest els} :
    parseFrom size limit o rest = .ok els ↔ Splits limit o rest els := by
  constructor
  · intro h
    -- the loop goes on after an expression, which is any number of units further
    induction hlen : rest.length using Nat.strong_induction_on generalizing o rest els with
    | _ n ih =>
      subst hlen
      obtain ⟨g, after, hrest, hg, hwidth, ⟨hnone, rfl⟩ | ⟨inside, hsome, rfl⟩⟩ := Gap.of_skips rest
      · rw [parseFrom_none hnone] at h
        cases h
        rw [List.append_nil] at hrest
        rw [← hrest] at hg
        exact .text hg
      · rw [parseFrom_some hsome] at h
        split at h
        · split at h
          · cases h
          · next expr close hsegment =>
            split at h
            · cases h
            · next more hmore =>
              cases h
              obtain ⟨t, after, ts, n, rfl, rfl, ht, hts, hn⟩ := parseSegment_closing.1 hsegment
              obtain ⟨htake, hdrop⟩ := closing_cut (o + (Gap.of rest).width + 2) t after
              rw [hdrop] at hmore
              rw [htake]
              rw [hwidth] at ht hmore ⊢
              have hlt : after.length < rest.length := by
                rw [hrest]
                simp only [List.length_append]
                have : 0 < ("\x7d\x7d" : Text).length := by decide
                omega
              have hsplits := Splits.expression hg ht hts hn (ih _ hlt hmore rfl)
              rw [← hrest] at hsplits
              exact hsplits
        · cases h
  · intro h
    induction h with
    | @text o g value hg =>
      have hof := hg.of_append rfl
      rw [List.append_nil] at hof
      rw [parseFrom_none (by rw [hof]), hof]
    | @expression o g value t after ts n expr more hg ht hts hn _ ih =>
      have hof := hg.of_append (Gap.of_open _)
      obtain ⟨htake, hdrop⟩ := closing_cut (o + g.length + 2) t after
      rw [parseFrom_some (by rw [hof]), hof, if_pos (hasClosing_append t after)]
      dsimp only
      rw [parseSegment_closing.2 ⟨t, after, ts, n, rfl, rfl, ht, hts, hn⟩]
      dsimp only
      rw [hdrop, htake, Cursor.stop_closing, ih]

/-- The elements of a template. -/
lemma parse_splits {source maxLength limit els} (h : parse source maxLength limit = .ok els) :
    Splits limit 0 source els := by
  unfold parse at h
  split at h
  · split at h
    · cases h
    · exact parseFrom_iff.1 h
  · exact parseFrom_iff.1 h

lemma length_enclosed (g t after : Text) :
    (g ++ ("\x7b\x7b" ++ (t ++ ("\x7d\x7d" ++ after)))).length =
      g.length + 2 + t.length + 2 + after.length := by
  have hopen : ("\x7b\x7b" : Text).length = 2 := rfl
  have hclose : ("\x7d\x7d" : Text).length = 2 := rfl
  simp only [List.length_append, hopen, hclose]
  omega

/-- Where an expression element stands, and what it is made of. -/
lemma Splits.of_mem {limit o rest els inner expr span} (h : Splits limit o rest els)
    (hmem : Element.expression inner expr span ∈ els) :
    ∃ (pre t after : Text) (ts : List Token) (n : Nat),
      rest = pre ++ ("\x7b\x7b" ++ (t ++ ("\x7d\x7d" ++ after))) ∧ inner = t.trim ∧
      span = ⟨o + pre.length, o + pre.length + 2 + t.length + 2⟩ ∧
      pre.getLast? ≠ some ('\\' : CodeUnit) ∧ Spelled (o + pre.length + 2) t ts ∧
      Derives n ts (.pipeline expr) ∧ Within (effective limit) (1 + n) := by
  have texts {value : Text} : Element.expression inner expr span ∉ ofText value := by
    unfold ofText
    split <;> simp
  induction h with
  | text => exact absurd hmem texts
  | @expression o g value t after ts n e more hg ht hts hn _ ih =>
    obtain hmem | hmem := List.mem_append.1 hmem
    · exact absurd hmem texts
    · obtain hmem | hmem := List.mem_cons.1 hmem
      · cases hmem
        exact ⟨g, t, after, ts, n, rfl, rfl, rfl, hg.getLast?_ne, ht, hts, hn⟩
      · obtain ⟨pre, t', after', ts', n', rfl, rfl, rfl, hlast, ht', hts', hn'⟩ := ih hmem
        have hlen : o + (g ++ ("\x7b\x7b" ++ (t ++ ("\x7d\x7d" ++ pre)))).length =
            o + g.length + 2 + t.length + 2 + pre.length := by
          rw [length_enclosed]
          omega
        refine ⟨g ++ ("\x7b\x7b" ++ (t ++ ("\x7d\x7d" ++ pre))), t', after', ts', n', ?_, rfl, ?_,
          ?_, ?_, hts', hn'⟩
        · simp only [List.append_assoc]
        · rw [hlen]
        · rw [← List.append_assoc, ← List.append_assoc, ← List.append_assoc]
          -- a gap that follows an expression at once is preceded by a brace
          cases pre with
          | nil =>
            rw [List.append_nil, List.getLast?_append_of_ne_nil _ (by decide)]
            decide
          | cons u pre => rwa [List.getLast?_append_cons]
        · rw [hlen]; exact ht'

end Element

end Stencil
