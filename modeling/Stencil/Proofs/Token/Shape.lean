import Stencil.Proofs.Token.Unit
import Stencil.Token.Reading

/-!
# Shapes of lexemes

Of which units the lexemes are made that are not final, and the strings among them.
-/

namespace Stencil

namespace Reading

/-- A string body up to its closing quote, with its value. -/
inductive Body (quote : CodeUnit) : Text → Text → Prop where
  | close : Body quote [quote] []
  | escape {v w value} :
    quote ≠ '\\' → Body quote w value → Body quote ('\\' :: v :: w) (unescape v :: value)
  | unit {u w value} :
    u ≠ quote → u ≠ '\\' → Body quote w value → Body quote (u :: w) (u :: value)

/-- The text of a lexeme that is not final. -/
inductive Shape : Text → Prop where
  | plain {w : Text} : w ≠ [] → (∀ v ∈ w, v.isPlain) → Shape w
  | string {quote : CodeUnit} {body value} :
    quote = '"' ∨ quote = '\'' → Body quote body value → Shape (quote :: body)
  | dollar {v : CodeUnit} {w : Text} :
    v ≠ 'n' → (∀ x ∈ v :: w, x.isPlain) → Shape ('$' :: v :: w)
  | node {quote : CodeUnit} {id w : Text} :
    quote = '\'' ∨ quote = '"' → quote ∉ id → (∀ v ∈ w, v.isPlain) →
    Shape ("$node(" ++ quote :: (id ++ quote :: ')' :: w))

variable {quote : CodeUnit}

@[simp] lemma stringBody_quote {t} : stringBody quote (quote :: t) = some ([], 1) := by
  cases t with
  | nil => rw [stringBody, if_pos rfl]
  | cons v t => rw [stringBody, if_pos rfl]

lemma stringBody_escape {v t} (hq : quote ≠ '\\') :
    stringBody quote ('\\' :: v :: t) =
      (stringBody quote t).map fun (value, width) => (unescape v :: value, width + 2) := by
  rw [stringBody, if_neg hq.symm, if_pos rfl]

lemma stringBody_unit {u t} (hu : u ≠ quote) (hb : u ≠ '\\') :
    stringBody quote (u :: t) =
      (stringBody quote t).map fun (value, width) => (u :: value, width + 1) := by
  cases t with
  | nil => simp [stringBody, hu]
  | cons v t => rw [stringBody, if_neg hu, if_neg hb]

/-- A string body is read whatever follows it. -/
lemma Body.stringBody {w value a} (h : Body quote w value) :
    Reading.stringBody quote (w ++ a) = some (value, w.length) := by
  induction h with
  | close => exact stringBody_quote
  | escape hq _ ih => rw [List.cons_append, List.cons_append, stringBody_escape hq, ih]; rfl
  | unit hu hb _ ih => rw [List.cons_append, stringBody_unit hu hb, ih]; rfl

lemma body_of_stringBody {t value n} (h : stringBody quote t = some (value, n)) :
    ∃ w a, t = w ++ a ∧ n = w.length ∧ Body quote w value := by
  fun_induction stringBody quote t generalizing value n with
  | case1 => cases h
  | case2 =>
    cases h
    exact ⟨[quote], [], rfl, rfl, .close⟩
  | case3 => cases h
  | case4 v rest =>
    cases h
    exact ⟨[quote], v :: rest, rfl, rfl, .close⟩
  | case5 v rest hq ih =>
    obtain ⟨⟨value, n⟩, hbody, ⟨⟩⟩ := Option.map_eq_some_iff.1 h
    obtain ⟨w, a, rfl, rfl, hw⟩ := ih hbody
    exact ⟨'\\' :: v :: w, a, rfl, rfl, .escape (Ne.symm hq) hw⟩
  | case6 u v rest hu hb ih =>
    obtain ⟨⟨value, n⟩, hbody, ⟨⟩⟩ := Option.map_eq_some_iff.1 h
    obtain ⟨w, a, hrest, rfl, hw⟩ := ih hbody
    exact ⟨u :: w, a, congrArg (u :: ·) hrest, rfl, .unit hu hb hw⟩

/-- A string literal is read if it has a closing quote. -/
lemma string_iff {rest r} :
    string quote rest = .ok r ↔
      ∃ w a value, rest = w ++ a ∧ Body quote w value ∧ r = ⟨.string value, w.length⟩ := by
  unfold string
  constructor
  · intro h
    split at h
    · next value width hbody =>
      cases h
      obtain ⟨w, a, rfl, rfl, hw⟩ := body_of_stringBody hbody
      exact ⟨w, a, value, rfl, hw, rfl⟩
    · cases h
  · rintro ⟨w, a, value, rfl, hw, rfl⟩
    rw [hw.stringBody]

end Reading

end Stencil
