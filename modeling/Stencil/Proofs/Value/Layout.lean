import Mathlib.Tactic.Lemma
import Stencil.Proofs.Text.Quoted
import Stencil.Proofs.Value.Equality
import Stencil.Proofs.Value.Plain
import Stencil.Value.Layout

/-!
# Layouts are unambiguous

A layout that cuts nothing shows all of a value. Main statement: `Value.layout_inj`. The layout of a value
ends where a comma or a line break follows, so parts are known one by one (`Layout.value_append_inj`).
-/

namespace Stencil

namespace Layout

variable {l : Layout} {depth : Nat}

/-- The line of an item. -/
def itemLine (l : Layout) (depth : Nat) (v : Value) : Text := l.margin depth ++ l.value depth v

/-- The line of an entry. -/
def entryLine (l : Layout) (depth : Nat) (e : Text × Value) : Text :=
  l.margin depth ++ e.1.quote ++ ": " ++ l.value depth e.2

lemma itemLines_eq (count : Nat) (items : List Value) : l.itemLines depth count items =
    (items.take count).map (l.itemLine (depth + 1)) := by
  induction items generalizing count with
  | nil =>
    cases count <;> rfl
  | cons v rest ih =>
    cases count with
    | zero => rfl
    | succ count => rw [itemLines, ih, List.take_succ_cons, List.map_cons, itemLine]

lemma entryLines_eq (count : Nat) (entries : List (Text × Value)) : l.entryLines depth count entries =
    (entries.take count).map (l.entryLine (depth + 1)) := by
  induction entries generalizing count with
  | nil =>
    cases count <;> rfl
  | cons e rest ih =>
    cases count with
    | zero => rfl
    | succ count => rw [entryLines, ih, List.take_succ_cons, List.map_cons, entryLine]

/-- The items of an array that are shown. -/
def items (l : Layout) (items : List Value) : List Value :=
  items.take (Quantity.ceiling (.min items.length l.maxItems))

/-- The entries of an object that are shown. -/
def entries (l : Layout) (entries : List (Text × Value)) : List (Text × Value) :=
  entries.take (Quantity.ceiling (.min entries.length l.maxEntries))

lemma value_array {as : List Value} (hne : as ≠ []) (h : l.maxDepth.le depth = false) :
    l.value depth (.array as) = l.block depth "[" "]" ((l.items as).map (l.itemLine (depth + 1)) ++
      l.remainder depth as.length (.min as.length l.maxItems) "item(s)") := by
  rw [value, if_neg (mt List.isEmpty_iff.1 hne), h, if_neg Bool.false_ne_true]
  dsimp only
  rw [itemLines_eq, items]

lemma value_object {es : List (Text × Value)} (hne : es ≠ []) (h : l.maxDepth.le depth = false) :
    l.value depth (.object es) = l.block depth "\x7b" "\x7d"
      ((l.entries es).map (l.entryLine (depth + 1)) ++
        l.remainder depth es.length (.min es.length l.maxEntries) "key(s)") := by
  rw [value, if_neg (mt List.isEmpty_iff.1 hne), h, if_neg Bool.false_ne_true]
  dsimp only
  rw [entryLines_eq, entries]

/-! ## Reading a layout -/

/-- A layout cuts nothing of a value at a depth, leaving its parts aside. -/
def Fits (l : Layout) (depth : Nat) : Value → Prop
  | .string t => l.maxString.lt t.length = false
  | .array items => items ≠ [] → l.maxDepth.le depth = false ∧ Quantity.le items.length l.maxItems
  | .object entries =>
    entries ≠ [] → l.maxDepth.le depth = false ∧ Quantity.le entries.length l.maxEntries
  | _ => True

/-- A layout cuts nothing of a value at a depth. -/
inductive Shows (l : Layout) : Nat → Value → Prop where
  | intro {depth : Nat} {v : Value} :
    l.Fits depth v → (∀ p ∈ v.parts, l.Shows (depth + 1) p) → l.Shows depth v

/-- All parts are shown if there are not more than the limit. -/
lemma all_shown {size : Nat} {q : Quantity} (h : Quantity.le size q) (depth : Nat) (unit : Text) :
    Quantity.ceiling (.min size q) = size ∧ l.remainder depth size (.min size q) unit = [] := by
  have hmin : Quantity.min size q = size := by
    simp only [Quantity.le, Bool.and_eq_true, Bool.not_eq_true'] at h
    rw [Quantity.min, h.1.1, h.1.2, h.2]
    rfl
  have hsize : (size : Quantity).toInt? = some (size : Int) := rfl
  rw [hmin, Quantity.ceiling_eq hsize, remainder, (Quantity.lt_whole hsize size).1,
    decide_eq_false (Int.lt_irrefl _)]
  exact ⟨rfl, rfl⟩

lemma value_string {t : Text} (h : l.Fits depth (.string t)) : l.value depth (.string t) = t.quote := by
  rw [value, string, if_neg (by rw [h]; decide)]

/-- Parts between brackets, one a line if there are any. -/
def brackets {α : Type} (l : Layout) (depth : Nat) (opening closing : Text) (line : α → Text)
    (parts : List α) : Text :=
  if parts.isEmpty then opening ++ closing else l.block depth opening closing (parts.map line)

lemma value_array_of_fits {as : List Value} (h : l.Fits depth (.array as)) :
    l.value depth (.array as) = l.brackets depth "[" "]" (l.itemLine (depth + 1)) as := by
  rw [brackets]
  split
  · next hnil =>
    obtain rfl := List.isEmpty_iff.1 hnil
    rfl
  · next hne =>
    obtain ⟨hdepth, hsize⟩ := h (mt List.isEmpty_iff.2 hne)
    obtain ⟨hcount, hrest⟩ := all_shown (l := l) hsize depth "item(s)"
    rw [value_array (mt List.isEmpty_iff.2 hne) hdepth, hrest, items, hcount, List.take_length,
      List.append_nil]

lemma value_object_of_fits {es : List (Text × Value)} (h : l.Fits depth (.object es)) :
    l.value depth (.object es) = l.brackets depth "\x7b" "\x7d" (l.entryLine (depth + 1)) es := by
  rw [brackets]
  split
  · next hnil =>
    obtain rfl := List.isEmpty_iff.1 hnil
    rfl
  · next hne =>
    obtain ⟨hdepth, hsize⟩ := h (mt List.isEmpty_iff.2 hne)
    obtain ⟨hcount, hrest⟩ := all_shown (l := l) hsize depth "key(s)"
    rw [value_object (mt List.isEmpty_iff.2 hne) hdepth, hrest, entries, hcount, List.take_length,
      List.append_nil]

/-- What follows the layout of a value: nothing, a comma or a line break. -/
def Ends (a : Text) : Prop := ∀ u ∈ a.head?, u = ',' ∨ u = '\n'

lemma Ends.isWord {a : Text} (h : Ends a) : ∀ u ∈ a.head?, u.isWord = false := by
  intro u hu
  obtain rfl | rfl := h u hu <;> decide

section

variable {α : Type} {f : α → Text} {xs ys : List α} {a b : Text}

/-- Lines that are known one by one are known together: a comma follows all but the last. -/
lemma join_inj (hline : ∀ x ∈ xs, ∀ y ∈ ys, ∀ a b, Ends a → Ends b → f x ++ a = f y ++ b → x = y ∧ a = b)
    (hxs : xs ≠ []) (hys : ys ≠ [])
    (h : Text.join ",\n" (xs.map f) ++ ("\n" ++ a) = Text.join ",\n" (ys.map f) ++ ("\n" ++ b)) :
    xs = ys ∧ a = b := by
  have hbreak (a : Text) : Ends ("\n" ++ a) := by
    rintro u ⟨⟩
    exact .inr rfl
  have hcomma (a : Text) : Ends (",\n" ++ a) := by
    rintro u ⟨⟩
    exact .inl rfl
  have hmore (x x' : α) (rest : List α) (a : Text) : Text.join ",\n" ((x :: x' :: rest).map f) ++ a =
      f x ++ (",\n" ++ (Text.join ",\n" ((x' :: rest).map f) ++ a)) := by
    rw [List.map_cons, List.map_cons, Text.join, List.append_assoc, List.append_assoc]
    exact nofun
  have hlast (x : α) (a : Text) : Text.join ",\n" ([x].map f) ++ a = f x ++ a := rfl
  induction xs generalizing ys with
  | nil => exact absurd rfl hxs
  | cons x xs ih =>
    cases ys with
    | nil => exact absurd rfl hys
    | cons y ys =>
      have hhead := hline x List.mem_cons_self y List.mem_cons_self
      cases xs with
      | nil =>
        cases ys with
        | nil =>
          obtain ⟨rfl, hrest⟩ := hhead _ _ (hbreak a) (hbreak b) h
          exact ⟨rfl, List.append_cancel_left hrest⟩
        | cons y' ys =>
          rw [hlast, hmore] at h
          obtain ⟨-, hrest⟩ := hhead _ _ (hbreak a) (hcomma _) h
          cases hrest
      | cons x' xs =>
        rw [hmore] at h
        cases ys with
        | nil =>
          rw [hlast] at h
          obtain ⟨-, hrest⟩ := hhead _ _ (hcomma _) (hbreak b) h
          cases hrest
        | cons y' ys =>
          rw [hmore] at h
          obtain ⟨rfl, hrest⟩ := hhead _ _ (hcomma _) (hcomma _) h
          obtain ⟨heq, hend⟩ := ih (fun x hx y hy => hline x (List.mem_cons_of_mem _ hx) y
            (List.mem_cons_of_mem _ hy)) (List.cons_ne_nil _ _) (List.cons_ne_nil _ _)
            (List.append_cancel_left hrest)
          exact ⟨congrArg (x :: ·) heq, hend⟩

/-- So are the parts between brackets. -/
lemma brackets_inj {opening closing : Text} (hclosing : ∀ a b : Text, closing ++ a ≠ "\n" ++ b)
    (hline : ∀ x ∈ xs, ∀ y ∈ ys, ∀ a b, Ends a → Ends b → f x ++ a = f y ++ b → x = y ∧ a = b)
    (h : l.brackets depth opening closing f xs ++ a = l.brackets depth opening closing f ys ++ b) :
    xs = ys ∧ a = b := by
  unfold brackets block at h
  by_cases hxs : xs = []
  · rw [if_pos (List.isEmpty_iff.2 hxs), List.append_assoc] at h
    by_cases hys : ys = []
    · rw [if_pos (List.isEmpty_iff.2 hys), List.append_assoc] at h
      exact ⟨hxs.trans hys.symm, List.append_cancel_left (List.append_cancel_left h)⟩
    · rw [if_neg (mt List.isEmpty_iff.1 hys)] at h
      simp only [List.append_assoc] at h
      exact absurd (List.append_cancel_left h) (hclosing _ _)
  · rw [if_neg (mt List.isEmpty_iff.1 hxs)] at h
    by_cases hys : ys = []
    · rw [if_pos (List.isEmpty_iff.2 hys)] at h
      simp only [List.append_assoc] at h
      exact absurd (List.append_cancel_left h).symm (hclosing _ _)
    · rw [if_neg (mt List.isEmpty_iff.1 hys)] at h
      simp only [List.append_assoc] at h
      obtain ⟨heq, hend⟩ := join_inj hline hxs hys (List.append_cancel_left (List.append_cancel_left h))
      exact ⟨heq, List.append_cancel_left (List.append_cancel_left hend)⟩

end

/-- The kinds that the first unit of a layout tells apart; all words count as one. -/
def mark : Value → Kind
  | .string _ => .string
  | .array _ => .array
  | .object _ => .object
  | _ => .null

/-- The kind that a first unit tells. -/
def markOf (u : CodeUnit) : Kind :=
  if u = '"' then .string else if u = '[' then .array else if u = '\x7b' then .object else .null

lemma markOf_word {u : CodeUnit} (h : u.isWord) : markOf u = .null := by
  have hne {c : CodeUnit} (hc : c.isWord = false) : u ≠ c := by
    rintro rfl
    rw [hc] at h
    cases h
  rw [markOf, if_neg (hne rfl), if_neg (hne rfl), if_neg (hne rfl)]

variable {v w : Value}

lemma value_plain {t : Text} (h : v.plainText? = some t) : l.value depth v = t := by
  cases v <;> cases h <;> rfl

lemma exists_plain (h : mark v = .null) : ∃ t, v.plainText? = some t := by
  cases v with
  | string => cases h
  | array => cases h
  | object => cases h
  | _ => exact ⟨_, rfl⟩

lemma mark_of_head (a : Text) : (l.value depth v ++ a).head?.map markOf = some (mark v) := by
  have hword {t : Text} (ht : t.IsWord) (hne : t ≠ []) : (t ++ a).head?.map markOf = some .null := by
    obtain ⟨u, rest, rfl⟩ := List.exists_cons_of_ne_nil hne
    exact congrArg some (markOf_word (ht u List.mem_cons_self))
  cases v with
  | null => rfl
  | bool b => cases b <;> rfl
  | integer n => exact hword (Text.isWord_ofInt _) (Text.ofInt_ne_nil _)
  | float x => exact hword x.isWord_textWithPlace x.textWithPlace_ne_nil
  | string t =>
    rw [value, string]
    split <;> rfl
  | array items =>
    rw [value]
    split
    · rfl
    · split <;> rfl
  | object entries =>
    rw [value]
    split
    · rfl
    · split <;> rfl

/-- Values that are words are known from their words. -/
lemma plain_append_inj (hv : mark v = .null) (hw : mark w = .null)
    (hzero : ∀ x, v = .float x ∨ w = .float x → x.isNegativeZero = false) {a b : Text} (ha : Ends a)
    (hb : Ends b) (h : l.value depth v ++ a = l.value depth w ++ b) : v = w ∧ a = b := by
  obtain ⟨t, ht⟩ := exists_plain hv
  obtain ⟨t', ht'⟩ := exists_plain hw
  rw [value_plain ht, value_plain ht'] at h
  obtain ⟨rfl, hrest⟩ := (Value.isWord_plainText ht).append_inj (Value.isWord_plainText ht')
    ha.isWord hb.isWord h
  have hread := Value.ofPlain?_plainText ht fun x hx => hzero x (.inl hx)
  have hread' := Value.ofPlain?_plainText ht' fun x hx => hzero x (.inr hx)
  exact ⟨Option.some.inj (hread.symm.trans hread'), hrest⟩

/-- The layout of a value that is all shown is known from any text that begins with it and goes on with a
comma or a line break. -/
theorem value_append_inj (hv : l.Shows depth v) (hw : l.Shows depth w)
    (hzero : ∀ x, x.isNegativeZero → ¬ Value.Occurs (.float x) v ∧ ¬ Value.Occurs (.float x) w)
    {a b : Text} (ha : Ends a) (hb : Ends b) (h : l.value depth v ++ a = l.value depth w ++ b) :
    v = w ∧ a = b := by
  induction v using Value.induct_parts generalizing depth w a b with
  | step v ih =>
    obtain ⟨hv, hvparts⟩ := hv
    obtain ⟨hw, hwparts⟩ := hw
    have hmark : mark v = mark w := by
      have hhead : (l.value depth v ++ a).head?.map markOf = some (mark v) := mark_of_head a
      rw [h, mark_of_head] at hhead
      exact (Option.some.inj hhead).symm
    have hpart {p q : Value} (hp : p ∈ v.parts) (hq : q ∈ w.parts) {a b : Text} (ha : Ends a)
        (hb : Ends b) (h : l.value (depth + 1) p ++ a = l.value (depth + 1) q ++ b) : p = q ∧ a = b := by
      refine ih p hp (hvparts p hp) (hwparts q hq) (fun x hx => ?_) ha hb h
      obtain ⟨hv, hw⟩ := hzero x hx
      exact ⟨fun hoccurs => hv (.part hp hoccurs), fun hoccurs => hw (.part hq hoccurs)⟩
    have hfloat (x : Number) (hx : v = .float x ∨ w = .float x) : x.isNegativeZero = false := by
      by_contra hneg
      obtain ⟨hv, hw⟩ := hzero x (by simpa using hneg)
      exact hx.elim (fun hx => hv (hx ▸ .self)) fun hx => hw (hx ▸ .self)
    by_cases hplain : mark v = .null
    · exact plain_append_inj hplain (hmark ▸ hplain) hfloat ha hb h
    · cases v with
      | string s =>
        cases w with
        | string t =>
          rw [value_string hv, value_string hw] at h
          obtain ⟨rfl, hrest⟩ := Text.quote_append_inj h
          exact ⟨rfl, hrest⟩
        | _ => cases hmark
      | array items =>
        cases w with
        | array items' =>
          rw [value_array_of_fits hv, value_array_of_fits hw] at h
          have hclosing (a b : Text) : "]" ++ a ≠ "\n" ++ b := by rintro ⟨⟩
          obtain ⟨rfl, hrest⟩ := brackets_inj hclosing (fun p hp q hq a b ha hb h => by
            rw [itemLine, itemLine, List.append_assoc, List.append_assoc] at h
            exact hpart hp hq ha hb (List.append_cancel_left h)) h
          exact ⟨rfl, hrest⟩
        | _ => cases hmark
      | object entries =>
        cases w with
        | object entries' =>
          rw [value_object_of_fits hv, value_object_of_fits hw] at h
          have hclosing (a b : Text) : "\x7d" ++ a ≠ "\n" ++ b := by rintro ⟨⟩
          obtain ⟨rfl, hrest⟩ := brackets_inj hclosing (fun e he e' he' a b ha hb h => by
            simp only [entryLine, List.append_assoc] at h
            obtain ⟨hkey, h⟩ := Text.quote_append_inj (List.append_cancel_left h)
            obtain ⟨hvalue, hrest⟩ := hpart (List.mem_map_of_mem he) (List.mem_map_of_mem he') ha hb
              (List.append_cancel_left h)
            exact ⟨Prod.ext hkey hvalue, hrest⟩) h
          exact ⟨rfl, hrest⟩
        | _ => cases hmark
      | _ => exact absurd rfl hplain

end Layout

/-- Values that a layout shows all of, and that have no negative zero in them, have the same layout only if
they are the same. -/
theorem Value.layout_inj {l : Layout} {v w : Value} (hv : l.Shows 0 v) (hw : l.Shows 0 w)
    (hzero : ∀ x, x.isNegativeZero → ¬ Occurs (.float x) v ∧ ¬ Occurs (.float x) w) :
    v.layout l = w.layout l ↔ v = w := by
  constructor
  · intro h
    refine (Layout.value_append_inj hv hw hzero (a := []) (b := []) nofun nofun ?_).1
    rw [List.append_nil, List.append_nil]
    exact h
  · rintro rfl
    rfl

lemma Value.Occurs.inversion {q v : Value} (h : Occurs q v) : q = v ∨ ∃ p ∈ v.parts, Occurs q p := by
  cases h with
  | self => exact .inl rfl
  | part hp h => exact .inr ⟨_, hp, h⟩

/-- An integer and a float of the same number, in either order. -/
theorem Value.layout_inj_two :
    let two : Whole := ⟨2, by decide⟩
    let v := Value.array [.integer two, .float two.toNumber]
    let w := Value.array [.float two.toNumber, .integer two]
    Layout.standard.Shows 0 v ∧ Layout.standard.Shows 0 w ∧
      (∀ x, x.isNegativeZero → ¬ Occurs (.float x) v ∧ ¬ Occurs (.float x) w) ∧
      v.layout .standard ≠ w.layout .standard := by
  intro two v w
  have hparts : ∀ p ∈ v.parts, p = .integer two ∨ p = .float two.toNumber := by
    simp [v, parts]
  have hparts' : ∀ p ∈ w.parts, p = .integer two ∨ p = .float two.toNumber :=
    fun p hp => hparts p (List.mem_reverse.1 (show p ∈ v.parts.reverse from hp))
  have hshows (p : Value) (hp : p = .integer two ∨ p = .float two.toNumber) :
      Layout.standard.Shows 1 p := by
    obtain rfl | rfl := hp
    · exact ⟨trivial, nofun⟩
    · exact ⟨trivial, nofun⟩
  have hv : Layout.standard.Shows 0 v := ⟨fun _ => ⟨rfl, rfl⟩, fun p hp => hshows p (hparts p hp)⟩
  have hw : Layout.standard.Shows 0 w := ⟨fun _ => ⟨rfl, rfl⟩, fun p hp => hshows p (hparts' p hp)⟩
  have hoccurs (x : Number) (hx : x.isNegativeZero) (p : Value)
      (hp : p = .integer two ∨ p = .float two.toNumber) : ¬ Occurs (.float x) p := by
    obtain ⟨m, -, hm⟩ := two.toNumber_eq
    intro h
    obtain h | ⟨q, hq, -⟩ := h.inversion
    · obtain rfl | rfl := hp
      · cases h
      · rw [Value.float.inj h, hm] at hx
        cases hx
    · obtain rfl | rfl := hp <;> cases hq
  have hzero (x : Number) (hx : x.isNegativeZero) :
      ¬ Occurs (.float x) v ∧ ¬ Occurs (.float x) w := by
    have hkind : Kind.float ≠ Kind.array := nofun
    constructor
    · intro h
      obtain h | ⟨p, hp, h⟩ := h.inversion
      · exact hkind (congrArg kind h)
      · exact hoccurs x hx p (hparts p hp) h
    · intro h
      obtain h | ⟨p, hp, h⟩ := h.inversion
      · exact hkind (congrArg kind h)
      · exact hoccurs x hx p (hparts' p hp) h
  refine ⟨hv, hw, hzero, fun h => ?_⟩
  have hitems := Value.array.inj ((layout_inj hv hw hzero).1 h)
  cases (List.cons.inj hitems).1

end Stencil
