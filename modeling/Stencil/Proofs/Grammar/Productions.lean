import Stencil.Proofs.Grammar.Acceptance
import Stencil.Proofs.Number.Whole
import Stencil.Proofs.Token.Layout
import Stencil.Proofs.Token.Progress

/-!
# The productions of the grammar

The grammar with all of its words as they are written, one production after the other from the
loosest form to the tightest. `Derives` has the operators and the literals from the tables that the
parser looks them up in; here they are listed. Main statements: `Produces.iff_derives`, the two
grammars are the same, and `Expr.parse_eq_ok_iff`, exactly the texts of the grammar are parsed.
-/

namespace Stencil

/-- The forms with binary operators, from the loosest. -/
inductive Precedence where
  | or
  | and
  | equality
  | relational
  | additive
  | multiplicative

/-- The token is written between two operands of a form, for the operator. -/
inductive Between : Precedence → Token → BinaryOp → Prop where
  | or {p} : Between .or ⟨.sign .or, "||", p⟩ .or
  | and {p} : Between .and ⟨.sign .and, "&&", p⟩ .and
  | equal {p} : Between .equality ⟨.sign .equal, "==", p⟩ .equal
  | notEqual {p} : Between .equality ⟨.sign .notEqual, "!=", p⟩ .notEqual
  | less {p} : Between .relational ⟨.sign .less, "<", p⟩ .less
  | lessEqual {p} : Between .relational ⟨.sign .atMost, "<=", p⟩ .lessEqual
  | greater {p} : Between .relational ⟨.sign .greater, ">", p⟩ .greater
  | greaterEqual {p} : Between .relational ⟨.sign .atLeast, ">=", p⟩ .greaterEqual
  | contains {p} : Between .relational ⟨.name "contains", "contains", p⟩ .contains
  | startsWith {p} : Between .relational ⟨.name "startsWith", "startsWith", p⟩ .startsWith
  | endsWith {p} : Between .relational ⟨.name "endsWith", "endsWith", p⟩ .endsWith
  | add {p} : Between .additive ⟨.sign .plus, "+", p⟩ .add
  | subtract {p} : Between .additive ⟨.sign .minus, "-", p⟩ .subtract
  | multiply {p} : Between .multiplicative ⟨.sign .times, "*", p⟩ .multiply
  | divide {p} : Between .multiplicative ⟨.sign .over, "/", p⟩ .divide
  | modulo {p} : Between .multiplicative ⟨.sign .percent, "%", p⟩ .modulo

/-- The token is written in front of an operand, for the operator. -/
inductive InFront : Token → UnaryOp → Prop where
  | not {p} : InFront ⟨.sign .bang, "!", p⟩ .not
  | negate {p} : InFront ⟨.sign .minus, "-", p⟩ .negate

/-- The token is a literal with the value. A number is an integer if it is written in digits only
and in the exact range. -/
inductive Denotes : Token → Value → Prop where
  | integer {text p} {n : Whole} :
    text.isDigits → n.toInt = text.toNat →
    Denotes ⟨.number text, text, p⟩ (.integer n)
  | float {text p n} :
    (text.isDigits → exactLimit < text.toNat) →
    Numeral.read? text = some n → n.toNumber.isFinite →
    Denotes ⟨.number text, text, p⟩ (.float n.toNumber)
  | string {value r p} : Denotes ⟨.string value, r, p⟩ (.string value)
  | true {p} : Denotes ⟨.name "true", "true", p⟩ (.bool true)
  | false {p} : Denotes ⟨.name "false", "false", p⟩ (.bool false)
  | null {p} : Denotes ⟨.name "null", "null", p⟩ .null

/-- What stands on the left of a production, with the tree that it is read as. -/
inductive Construct where
  | pipeline (e : Expr)
  /-- The stages after the input of a pipeline. -/
  | stages (stages : List Stage)
  | ternary (e : Expr)
  | binary (precedence : Precedence) (e : Expr)
  | unary (e : Expr)
  | primary (e : Expr)
  /-- What stands between the parentheses of a call. -/
  | arguments (args : List Expr)

/-- The operands of a form with binary operators, which are of the next tighter form. -/
def Precedence.operand : Precedence → Expr → Construct
  | .or => .binary .and
  | .and => .binary .equality
  | .equality => .binary .relational
  | .relational => .binary .additive
  | .additive => .binary .multiplicative
  | .multiplicative => .unary

/-- The productions. A repetition of operands is read from the left. -/
inductive Produces : List Token → Construct → Prop where
  | pipeline {ts us input stages} :
    Produces ts (.ternary input) →
    Produces us (.stages stages) →
    Produces (ts ++ us) (.pipeline (input.piped stages))
  | noStages :
    Produces [] (.stages [])
  | bareStage {us stages p₀ p} {name : Text} :
    name ≠ "if" →
    Produces us (.stages stages) →
    Produces (⟨.sign .bar, "|", p₀⟩ :: ⟨.name name, name, p⟩ :: us) (.stages (.mk p name [] :: stages))
  | stage {ts us args stages p₀ p p₁ p₂} {name : Text} :
    name ≠ "if" →
    Produces ts (.arguments args) →
    Produces us (.stages stages) →
    Produces
      (⟨.sign .bar, "|", p₀⟩ :: ⟨.name name, name, p⟩ :: ⟨.mark .opening, "(", p₁⟩ ::
        (ts ++ ⟨.mark .closing, ")", p₂⟩ :: us))
      (.stages (.mk ⟨p.start, p₂.stop⟩ name args :: stages))
  | choice {ts e} :
    Produces ts (.binary .or e) →
    Produces ts (.ternary e)
  | ternary {ts us vs c a b p₁ p₂} :
    Produces ts (.binary .or c) →
    Produces us (.ternary a) →
    Produces vs (.ternary b) →
    Produces
      (ts ++ ⟨.mark .question, "?", p₁⟩ :: (us ++ ⟨.mark .colon, ":", p₂⟩ :: vs))
      (.ternary (.ternary ⟨c.span.start, b.span.stop⟩ c a b))
  | operand {precedence ts e} :
    Produces ts (precedence.operand e) →
    Produces ts (.binary precedence e)
  | binary {precedence ts t us op left right} :
    Between precedence t op →
    Produces ts (.binary precedence left) →
    Produces us (precedence.operand right) →
    Produces (ts ++ t :: us)
      (.binary precedence (.binary ⟨left.span.start, right.span.stop⟩ op left right))
  | unary {t ts op e} :
    InFront t op →
    Produces ts (.unary e) →
    Produces (t :: ts) (.unary (.unary ⟨t.span.start, e.span.stop⟩ op e))
  | atom {ts e} :
    Produces ts (.primary e) →
    Produces ts (.unary e)
  | literal {t v} :
    Denotes t v →
    Produces [t] (.primary (.literal t.span v t.raw))
  | access {source path r p} :
    Produces [⟨.reference source path, r, p⟩] (.primary (.access p source path))
  | conditional {ts c a b p p₁ p₂} :
    Produces ts (.arguments (c :: a :: Option.toList b)) →
    Produces
      (⟨.name "if", "if", p⟩ :: ⟨.mark .opening, "(", p₁⟩ :: (ts ++ [⟨.mark .closing, ")", p₂⟩]))
      (.primary (.conditional ⟨p.start, p₂.stop⟩ c a b))
  | call {ts name args p p₁ p₂} :
    name ∉ (["true", "false", "null", "if"] : List Text) →
    Produces ts (.arguments args) →
    Produces
      (⟨.name name, name, p⟩ :: ⟨.mark .opening, "(", p₁⟩ :: (ts ++ [⟨.mark .closing, ")", p₂⟩]))
      (.primary (.call ⟨p.start, p₂.stop⟩ name args))
  | group {ts e p₁ p₂} :
    Produces ts (.pipeline e) →
    Produces (⟨.mark .opening, "(", p₁⟩ :: (ts ++ [⟨.mark .closing, ")", p₂⟩])) (.primary e)
  | noArguments :
    Produces [] (.arguments [])
  | lastArgument {ts e} :
    Produces ts (.pipeline e) →
    Produces ts (.arguments [e])
  | argument {ts us e arg args p} :
    Produces ts (.pipeline e) →
    Produces us (.arguments (arg :: args)) →
    Produces (ts ++ ⟨.mark .comma, ",", p⟩ :: us) (.arguments (e :: arg :: args))

/-! ## The tables of the parser -/

/-- The token is written as what it stands for, if it is no string. -/
def Token.Written (t : Token) : Prop := (∀ value, t.lexeme ≠ .string value) → t.value = t.raw

lemma Reads.written {t : Token} (h : Reads t.raw t.lexeme) : t.Written := by
  obtain ⟨l, r, p⟩ := t
  obtain ⟨u, v, rfl, hfirst⟩ := h
  intro hl
  have hvalue : (Token.mk l (u :: v.take v.length) p).value = u :: v.take v.length :=
    Reading.first_value hfirst hl
  rwa [List.take_length] at hvalue

/-- The level of the binary operators of a form. -/
def Precedence.level : Precedence → Nat
  | .or => 0
  | .and => 1
  | .equality => 2
  | .relational => 3
  | .additive => 4
  | .multiplicative => 5

lemma Between.table {precedence t op} (h : Between precedence t op) :
    BinaryOp.ofLexeme? t.lexeme = some op ∧ op.level = precedence.level := by
  cases h <;> exact ⟨rfl, rfl⟩

lemma InFront.table {t op} (h : InFront t op) : UnaryOp.ofLexeme? t.lexeme = some op := by
  cases h <;> rfl

/-- A name that is an operator is written between two operands. -/
lemma between_of_name {name op r p} (hop : BinaryOp.ofLexeme? (.name name) = some op)
    (ht : name = r) : ∃ precedence, Between precedence ⟨.name name, r, p⟩ op := by
  subst ht
  dsimp only [BinaryOp.ofLexeme?] at hop
  split at hop
  · next h => cases hop; subst h; exact ⟨_, .contains⟩
  · split at hop
    · next h => cases hop; subst h; exact ⟨_, .startsWith⟩
    · split at hop
      · next h => cases hop; subst h; exact ⟨_, .endsWith⟩
      · cases hop

lemma between_of_sign {s op r p} (hop : BinaryOp.ofSign? s = some op) (ht : s.text = r) :
    ∃ precedence, Between precedence ⟨.sign s, r, p⟩ op := by
  subst ht
  cases s <;> cases hop <;> exact ⟨_, by constructor⟩

lemma exists_between {t op} (ht : t.Written) (hop : BinaryOp.ofLexeme? t.lexeme = some op) :
    ∃ precedence, Between precedence t op := by
  obtain ⟨l, r, p⟩ := t
  cases l with
  | name name => exact between_of_name hop (ht nofun)
  | sign s => exact between_of_sign hop (ht nofun)
  | _ => cases hop

lemma inFront_of_table {t op} (ht : t.Written) (hop : UnaryOp.ofLexeme? t.lexeme = some op) :
    InFront t op := by
  obtain ⟨l, r, p⟩ := t
  cases l with
  | sign s =>
    obtain rfl : s.text = r := ht nofun
    cases s <;> cases hop
    · exact .negate
    · exact .not
  | _ => cases hop

/-- A number literal is an integer or a float by how it is written and by its size. -/
lemma numberLiteral?_eq_some {text v} : numberLiteral? text = some v ↔
    (∃ n : Whole, text.isDigits ∧ n.toInt = text.toNat ∧ v = .integer n) ∨
      ∃ n, (text.isDigits → exactLimit < text.toNat) ∧ Numeral.read? text = some n ∧
        n.toNumber.isFinite ∧ v = .float n.toNumber := by
  unfold numberLiteral?
  constructor
  · intro h
    split at h
    · next hdigits hwhole =>
      cases h
      exact .inl ⟨_, hdigits, Whole.toInt_of_ofInt? hwhole, rfl⟩
    · next hwhole =>
      split at h
      · next n hn =>
        split at h
        · next hfinite =>
          cases h
          refine .inr ⟨n, fun hdigits => Nat.lt_of_not_le fun hle => ?_, hn, hfinite, rfl⟩
          exact hwhole ⟨text.toNat, hle⟩ hdigits (Whole.ofInt?_toInt ⟨text.toNat, hle⟩)
        · cases h
      · cases h
  · rintro (⟨n, hdigits, hn, rfl⟩ | ⟨n, hbig, hn, hfinite, rfl⟩)
    · rw [hdigits, ← hn, Whole.ofInt?_toInt]
    · split
      · next m hdigits hwhole =>
        have hbound := m.bounded
        rw [Whole.toInt_of_ofInt? hwhole] at hbound
        exact absurd hbound (Nat.not_le.2 (hbig hdigits))
      · rw [hn]
        exact if_pos hfinite

lemma Denotes.table {t v} (h : Denotes t v) : t.lexeme.literal? = some v := by
  cases h with
  | integer hdigits hn => exact numberLiteral?_eq_some.2 (.inl ⟨_, hdigits, hn, rfl⟩)
  | float hbig hn hfinite => exact numberLiteral?_eq_some.2 (.inr ⟨_, hbig, hn, hfinite, rfl⟩)
  | _ => rfl

lemma denotes_of_name {name v p} (hv : keywordLiteral? name = some v) :
    Denotes ⟨.name name, name, p⟩ v := by
  unfold keywordLiteral? at hv
  split at hv
  · next h => cases hv; subst h; exact .true
  · split at hv
    · next h => cases hv; subst h; exact .false
    · split at hv
      · next h => cases hv; subst h; exact .null
      · cases hv

lemma denotes_of_table {t v} (ht : t.Written) (hv : t.lexeme.literal? = some v) : Denotes t v := by
  obtain ⟨l, r, p⟩ := t
  cases l with
  | number text =>
    obtain rfl : text = r := ht nofun
    obtain ⟨n, hdigits, hn, rfl⟩ | ⟨n, hbig, hn, hfinite, rfl⟩ := numberLiteral?_eq_some.1 hv
    · exact .integer hdigits hn
    · exact .float hbig hn hfinite
  | string => cases hv; exact .string
  | name name =>
    obtain rfl : name = r := ht nofun
    exact denotes_of_name hv
  | _ => cases hv

/-- What is no literal and no conditional can be called. -/
lemma callable_iff_not_mem {name : Text} :
    Callable name ↔ name ∉ (["true", "false", "null", "if"] : List Text) := by
  simp only [Callable, keywordLiteral?, conditionalName, List.mem_cons, List.not_mem_nil]
  grind

/-! ## The same grammar -/

/-- The phrase that the left side of a production is. -/
def Construct.phrase : Construct → Phrase
  | .pipeline e => .pipeline e
  | .stages list => .stages list
  | .ternary e => .ternary e
  | .binary precedence e => .operand precedence.level e
  | .unary e => .unary e
  | .primary e => .primary e
  | .arguments args => .arguments args

namespace Precedence

/-- The loosest operand of a level. -/
def atLevel : Nat → Expr → Construct
  | 0 => .binary .or
  | 1 => .binary .and
  | 2 => .binary .equality
  | 3 => .binary .relational
  | 4 => .binary .additive
  | 5 => .binary .multiplicative
  | _ => .unary

lemma atLevel_level (precedence : Precedence) : atLevel precedence.level = .binary precedence := by
  cases precedence <;> rfl

lemma atLevel_succ (precedence : Precedence) :
    atLevel (precedence.level + 1) = precedence.operand := by
  cases precedence <;> rfl

lemma exists_level {level : Nat} (h : level < BinaryOp.levels) :
    ∃ precedence : Precedence, precedence.level = level := by
  match level, h with
  | 0, _ => exact ⟨.or, rfl⟩
  | 1, _ => exact ⟨.and, rfl⟩
  | 2, _ => exact ⟨.equality, rfl⟩
  | 3, _ => exact ⟨.relational, rfl⟩
  | 4, _ => exact ⟨.additive, rfl⟩
  | 5, _ => exact ⟨.multiplicative, rfl⟩

end Precedence

/-- The left side of a production that a phrase is. -/
def Phrase.construct : Phrase → Construct
  | .pipeline e => .pipeline e
  | .stages list => .stages list
  | .ternary e => .ternary e
  | .operand level e => Precedence.atLevel level e
  | .unary e => .unary e
  | .primary e => .primary e
  | .arguments args => .arguments args

/-- An operand derived as such is derived at the level above that of its operator. -/
lemma Derives.operand {n ts precedence e}
    (h : Derives n ts (Precedence.operand precedence e).phrase) :
    Derives n ts (.operand (precedence.level + 1) e) := by
  cases precedence with
  | multiplicative => exact .factor h
  | _ => exact h

/-- What the productions give is derived. -/
theorem Produces.derives {ts c} (h : Produces ts c) : ∃ n, Derives n ts c.phrase := by
  induction h with
  | pipeline _ _ ih ih' =>
    obtain ⟨⟨n, hts⟩, m, hus⟩ := And.intro ih ih'
    exact ⟨_, .pipeline hts hus⟩
  | noStages => exact ⟨0, .noStages⟩
  | bareStage hname _ ih =>
    obtain ⟨n, hus⟩ := ih
    exact ⟨n, .bareStage hname hus⟩
  | stage hname _ _ ih ih' =>
    obtain ⟨⟨n, hts⟩, m, hus⟩ := And.intro ih ih'
    exact ⟨_, .stage hname hts hus⟩
  | choice _ ih =>
    obtain ⟨n, hts⟩ := ih
    exact ⟨n, .choice hts⟩
  | ternary _ _ _ ih ih' ih'' =>
    obtain ⟨⟨n, hts⟩, ⟨m, hus⟩, k, hvs⟩ := And.intro ih (And.intro ih' ih'')
    exact ⟨_, .ternary hts hus hvs⟩
  | @operand precedence ts e _ ih =>
    obtain ⟨n, hts⟩ := ih
    have hlevel : precedence.level < BinaryOp.levels := by cases precedence <;> decide
    exact ⟨n, .tighter hlevel hts.operand⟩
  | binary ht _ _ ih ih' =>
    obtain ⟨⟨n, hts⟩, m, hus⟩ := And.intro ih ih'
    obtain ⟨hop, hlevel⟩ := ht.table
    have hus := hus.operand
    rw [Construct.phrase, ← hlevel] at hts ⊢
    rw [← hlevel] at hus
    exact ⟨_, .binary hop hts hus⟩
  | unary ht _ ih =>
    obtain ⟨n, hts⟩ := ih
    exact ⟨_, .unary ht.table hts⟩
  | atom _ ih =>
    obtain ⟨n, hts⟩ := ih
    exact ⟨n, .atom hts⟩
  | literal hv => exact ⟨0, .literal hv.table⟩
  | access => exact ⟨0, .access⟩
  | conditional _ ih =>
    obtain ⟨n, hts⟩ := ih
    exact ⟨_, .conditional hts⟩
  | call hname _ ih =>
    obtain ⟨n, hts⟩ := ih
    exact ⟨_, .call (callable_iff_not_mem.2 hname) hts⟩
  | group _ ih =>
    obtain ⟨n, hts⟩ := ih
    exact ⟨_, .group hts⟩
  | noArguments => exact ⟨0, .noArguments⟩
  | lastArgument _ ih =>
    obtain ⟨n, hts⟩ := ih
    exact ⟨n, .lastArgument hts⟩
  | argument _ _ ih ih' =>
    obtain ⟨⟨n, hts⟩, m, hus⟩ := And.intro ih ih'
    exact ⟨_, .argument hts hus⟩

/-- What is derived from tokens that are written as what they stand for, the productions give. -/
theorem Derives.produces {n ts p} (h : Derives n ts p) (hts : ∀ t ∈ ts, t.Written) :
    Produces ts p.construct := by
  induction h with
  | literal hv => exact .literal (denotes_of_table (hts _ List.mem_cons_self) hv)
  | access => exact .access
  | @group n ts e r₁ p₁ r₂ p₂ _ ih =>
    simp only [List.forall_mem_cons, List.forall_mem_append] at hts
    obtain ⟨hopen, hts, hclose, -⟩ := hts
    obtain rfl : "(" = r₁ := hopen nofun
    obtain rfl : ")" = r₂ := hclose nofun
    exact .group (ih hts)
  | @call n ts name args r p r₁ p₁ r₂ p₂ hname _ ih =>
    simp only [List.forall_mem_cons, List.forall_mem_append] at hts
    obtain ⟨hword, hopen, hts, hclose, -⟩ := hts
    obtain rfl : name = r := hword nofun
    obtain rfl : "(" = r₁ := hopen nofun
    obtain rfl : ")" = r₂ := hclose nofun
    exact .call (callable_iff_not_mem.1 hname) (ih hts)
  | @conditional n ts c a b r p r₁ p₁ r₂ p₂ _ ih =>
    simp only [List.forall_mem_cons, List.forall_mem_append] at hts
    obtain ⟨hword, hopen, hts, hclose, -⟩ := hts
    obtain rfl : "if" = r := hword nofun
    obtain rfl : "(" = r₁ := hopen nofun
    obtain rfl : ")" = r₂ := hclose nofun
    exact .conditional (ih hts)
  | noArguments => exact .noArguments
  | lastArgument _ ih => exact .lastArgument (ih hts)
  | @argument n m ts us e arg args r p _ _ ih ih' =>
    simp only [List.forall_mem_cons, List.forall_mem_append] at hts
    obtain ⟨hts, hcomma, hus⟩ := hts
    obtain rfl : "," = r := hcomma nofun
    exact .argument (ih hts) (ih' hus)
  | atom _ ih => exact .atom (ih hts)
  | unary hop _ ih =>
    obtain ⟨ht, hts⟩ := List.forall_mem_cons.1 hts
    exact .unary (inFront_of_table ht hop) (ih hts)
  | factor _ ih => exact ih hts
  | @tighter n ts level e hlevel _ ih =>
    obtain ⟨precedence, rfl⟩ := Precedence.exists_level hlevel
    have hoperand := ih hts
    rw [Phrase.construct, Precedence.atLevel_succ] at hoperand
    rw [Phrase.construct, Precedence.atLevel_level]
    exact .operand hoperand
  | @binary n m t ts us op left right hop _ _ ih ih' =>
    simp only [List.forall_mem_cons, List.forall_mem_append] at hts
    obtain ⟨hts, ht, hus⟩ := hts
    obtain ⟨precedence, hbetween⟩ := exists_between ht hop
    have hleft := ih hts
    have hright := ih' hus
    rw [Phrase.construct, hbetween.table.2] at hleft hright ⊢
    rw [Precedence.atLevel_level] at hleft ⊢
    rw [Precedence.atLevel_succ] at hright
    exact .binary hbetween hleft hright
  | choice _ ih => exact .choice (ih hts)
  | @ternary n m k ts us vs c a b r₁ p₁ r₂ p₂ _ _ _ ih ih' ih'' =>
    simp only [List.forall_mem_cons, List.forall_mem_append] at hts
    obtain ⟨hts, hquestion, hus, hcolon, hvs⟩ := hts
    obtain rfl : "?" = r₁ := hquestion nofun
    obtain rfl : ":" = r₂ := hcolon nofun
    exact .ternary (ih hts) (ih' hus) (ih'' hvs)
  | noStages => exact .noStages
  | @bareStage n us name stages r₀ p₀ r p hname _ ih =>
    simp only [List.forall_mem_cons] at hts
    obtain ⟨hbar, hword, hus⟩ := hts
    obtain rfl : "|" = r₀ := hbar nofun
    obtain rfl : name = r := hword nofun
    exact .bareStage hname (ih hus)
  | @stage n m ts us name args stages r₀ p₀ r p r₁ p₁ r₂ p₂ hname _ _ ih ih' =>
    simp only [List.forall_mem_cons, List.forall_mem_append] at hts
    obtain ⟨hbar, hword, hopen, hts, hclose, hus⟩ := hts
    obtain rfl : "|" = r₀ := hbar nofun
    obtain rfl : name = r := hword nofun
    obtain rfl : "(" = r₁ := hopen nofun
    obtain rfl : ")" = r₂ := hclose nofun
    exact .stage hname (ih hts) (ih' hus)
  | pipeline _ _ ih ih' =>
    obtain ⟨hts, hus⟩ := List.forall_mem_append.1 hts
    exact .pipeline (ih hts) (ih' hus)

/-- The productions give the expressions that are derived. -/
theorem Produces.iff_derives {ts e} (hts : ∀ t ∈ ts, t.Written) :
    Produces ts (.pipeline e) ↔ ∃ n, Derives n ts (.pipeline e) :=
  ⟨derives, fun ⟨_, h⟩ => h.produces hts⟩

/-- Tokens that a source is split into are written as what they stand for. -/
lemma Cursor.written {source ts last} (h : (start source 0).tokens = ⟨ts, .ok last⟩)
    (hlast : last.lexeme = .eof) : ∀ t ∈ ts, t.Written := by
  have hspelled := (tokens_eof_iff.1 ⟨h, hlast⟩).1
  exact fun t ht => (hspelled.reads t ht).written

/-- Without a limit exactly the texts of the grammar are accepted, and the tree is that of the
productions: a text is parsed if it splits into tokens, of which the numbers are finite, that are a
pipeline. -/
theorem Expr.parse_eq_ok_iff {source e} :
    parse source none = .ok e ↔
      ∃ ts last, tokenize source = .ok (ts ++ [last]) ∧ last.lexeme = .eof ∧
        (∀ t ∈ ts, t.lexeme.Finite) ∧ ts ≠ [] ∧ Produces ts (.pipeline e) := by
  rw [parse_iff]
  constructor
  · rintro ⟨ts, last, n, htokens, hlast, hts, -⟩
    have hproduced := (Produces.iff_derives (Cursor.written htokens hlast)).2 ⟨n, hts⟩
    exact ⟨ts, last, tokenize_iff.2 htokens, hlast, hts.finite, hts.ne_nil, hproduced⟩
  · rintro ⟨ts, last, htokens, hlast, -, -, hproduced⟩
    obtain ⟨n, hts⟩ := hproduced.derives
    exact ⟨ts, last, n, tokenize_iff.1 htokens, hlast, hts, within_none⟩

end Stencil
