import Mathlib.Data.List.Infix
import Stencil.Proofs.Grammar.Level

/-!
# Beginnings of phrases

`Pending part us` says that the tokens `us` begin a phrase of a part and that more tokens are needed
for it. Main statement: `Pending.completes`. Every beginning is completed by literals, commas,
colons and closing parentheses, as long as no conditional call in it has too many arguments.
-/

namespace Stencil

/-- How many commas the tokens have between parentheses that were opened before them, where further
parentheses are open `depth` deep. -/
def commas : Nat → List Token → Nat
  | _, [] => 0
  | depth, ⟨.mark .opening, _, _⟩ :: ts => commas (depth + 1) ts
  | 0, ⟨.mark .closing, _, _⟩ :: _ => 0
  | depth + 1, ⟨.mark .closing, _, _⟩ :: ts => commas depth ts
  | 0, ⟨.mark .comma, _, _⟩ :: ts => commas 0 ts + 1
  | depth, _ :: ts => commas depth ts

/-- How many commas the arguments of a conditional call have that the tokens begin with. -/
def conditionalCommas : List Token → Nat
  | ⟨.name name, _, _⟩ :: ⟨.mark .opening, _, _⟩ :: ts =>
    if name = conditionalName then commas 0 ts else 0
  | _ => 0

/-- No conditional call, closed or not, has more than two commas. -/
def Sparse (ts : List Token) : Prop := ∀ us ∈ ts.tails, conditionalCommas us ≤ 2

instance : DecidablePred Sparse := fun ts => inferInstanceAs (Decidable (∀ us ∈ ts.tails, _))

lemma Sparse.of_suffix {us ts} (h : Sparse ts) (hus : us <:+ ts) : Sparse us := fun vs hvs =>
  h vs ((List.mem_tails ..).2 (((List.mem_tails ..).1 hvs).trans hus))

section Commas

variable {d : Nat} {l : Lexeme} {r : Text} {p : Span} {ts : List Token}

@[simp] lemma commas_opening :
    commas d (⟨.mark .opening, r, p⟩ :: ts) = commas (d + 1) ts := by
  rw [commas]

@[simp] lemma commas_closing :
    commas (d + 1) (⟨.mark .closing, r, p⟩ :: ts) = commas d ts := by
  rw [commas]

@[simp] lemma commas_comma : commas 0 (⟨.mark .comma, r, p⟩ :: ts) = commas 0 ts + 1 := by
  rw [commas]

@[simp] lemma commas_comma_inside :
    commas (d + 1) (⟨.mark .comma, r, p⟩ :: ts) = commas (d + 1) ts := by
  rw [commas] <;> simp

/-- Only parentheses and commas count. -/
lemma commas_cons {t : Token} (h : ∀ m, t.lexeme = .mark m → m = .question ∨ m = .colon) :
    commas d (t :: ts) = commas d ts := by
  obtain ⟨l, r, p⟩ := t
  cases l with
  | mark m => obtain rfl | rfl := h m rfl <;> rw [commas] <;> simp
  | _ => rw [commas] <;> simp

end Commas

/-- A phrase inside parentheses has no commas of theirs; nor has an expression anywhere. -/
lemma Derives.commas_append {n us p} (h : Derives n us p) {d ts}
    (hp : 0 < d ∨ ∀ args, p ≠ .arguments args) : commas d (us ++ ts) = commas d ts := by
  induction h generalizing d ts with
  | @literal t v hv =>
    refine commas_cons fun m hm => ?_
    rw [hm] at hv
    cases hv
  | access => exact commas_cons nofun
  | group _ ih => simp [ih (.inl (Nat.succ_pos d))]
  | call _ _ ih => simp [commas_cons, ih (.inl (Nat.succ_pos d))]
  | conditional _ ih => simp [commas_cons, ih (.inl (Nat.succ_pos d))]
  | noArguments => rfl
  | lastArgument _ ih => exact ih (.inr nofun)
  | argument _ _ ih ih' =>
    obtain hd | hargs := hp
    · obtain ⟨d, rfl⟩ := Nat.exists_eq_succ_of_ne_zero hd.ne'
      simp [ih, ih' (.inl hd)]
    · exact absurd rfl (hargs _)
  | atom _ ih => exact ih (.inr nofun)
  | @unary n t ts op e hop _ ih =>
    rw [List.cons_append, commas_cons, ih (.inr nofun)]
    intro m hm
    rw [hm] at hop
    cases hop
  | factor _ ih => exact ih (.inr nofun)
  | tighter _ _ ih => exact ih (.inr nofun)
  | @binary n m t ts us op left right hop _ _ ih ih' =>
    rw [List.append_assoc, ih (.inr nofun), List.cons_append, commas_cons, ih' (.inr nofun)]
    intro m hm
    rw [hm] at hop
    cases hop
  | choice _ ih => exact ih (.inr nofun)
  | ternary _ _ _ ih ih' ih'' => simp [commas_cons, ih, ih', ih'']
  | noStages => rfl
  | bareStage _ _ ih => simp [commas_cons, ih]
  | stage _ _ _ ih ih' => simp [commas_cons, ih (.inl (Nat.succ_pos d)), ih']
  | pipeline _ _ ih ih' => rw [List.append_assoc, ih (.inr nofun), ih' (.inr nofun)]

/-- What may be begun: a part of the grammar, what follows a left operand of a level, or the
arguments after some that are done. -/
inductive Part where
  | pipeline
  | stages
  | ternary
  | operand (level : Nat)
  | operators (level : Nat)
  | unary
  | primary
  | arguments (done : Nat)

/-- The tokens begin the part, and it needs more of them. -/
inductive Pending : Part → List Token → Prop where
  | start : Pending .primary []
  | inner {us r p} :
    Pending .pipeline us →
    Pending .primary (⟨.mark .opening, r, p⟩ :: us)
  | group {n us e r p} :
    Derives n us (.pipeline e) →
    Pending .primary (⟨.mark .opening, r, p⟩ :: us)
  | call {us name r p r' p'} :
    keywordLiteral? name = none →
    Pending (.arguments 0) us →
    Pending .primary (⟨.name name, r, p⟩ :: ⟨.mark .opening, r', p'⟩ :: us)
  | argument {k us} :
    Pending .pipeline us →
    Pending (.arguments k) us
  | lastArgument {k n us e} :
    Derives n us (.pipeline e) →
    Pending (.arguments k) us
  | nextArgument {k n us vs e r p} :
    Derives n us (.pipeline e) →
    Pending (.arguments (k + 1)) vs →
    Pending (.arguments k) (us ++ ⟨.mark .comma, r, p⟩ :: vs)
  | atom {us} :
    Pending .primary us →
    Pending .unary us
  | unary {t us op} :
    UnaryOp.ofLexeme? t.lexeme = some op →
    Pending .unary us →
    Pending .unary (t :: us)
  | factor {us} :
    Pending .unary us →
    Pending (.operand BinaryOp.levels) us
  | tighter {us level} :
    level < BinaryOp.levels →
    Pending (.operand (level + 1)) us →
    Pending (.operand level) us
  | binary {n us vs level e} :
    Derives n us (.operand level e) →
    Pending (.operators level) vs →
    Pending (.operand level) (us ++ vs)
  | right {t us op} :
    BinaryOp.ofLexeme? t.lexeme = some op →
    Pending (.operand (op.level + 1)) us →
    Pending (.operators op.level) (t :: us)
  | further {n t us vs op e} :
    BinaryOp.ofLexeme? t.lexeme = some op →
    Derives n us (.operand (op.level + 1) e) →
    Pending (.operators op.level) vs →
    Pending (.operators op.level) (t :: (us ++ vs))
  | condition {us} :
    Pending (.operand 0) us →
    Pending .ternary us
  | consequent {n us vs c r p} :
    Derives n us (.operand 0 c) →
    Pending .ternary vs →
    Pending .ternary (us ++ ⟨.mark .question, r, p⟩ :: vs)
  | colon {n m us vs c a r p} :
    Derives n us (.operand 0 c) →
    Derives m vs (.ternary a) →
    Pending .ternary (us ++ ⟨.mark .question, r, p⟩ :: vs)
  | alternate {n m us vs ws c a r p r' p'} :
    Derives n us (.operand 0 c) →
    Derives m vs (.ternary a) →
    Pending .ternary ws →
    Pending .ternary (us ++ ⟨.mark .question, r, p⟩ :: (vs ++ ⟨.mark .colon, r', p'⟩ :: ws))
  | input {us} :
    Pending .ternary us →
    Pending .pipeline us
  | piped {n us vs e} :
    Derives n us (.ternary e) →
    Pending .stages vs →
    Pending .pipeline (us ++ vs)
  | stageName {r p} : Pending .stages [⟨.sign .bar, r, p⟩]
  | stageArguments {us name r p r' p' r'' p''} :
    name ≠ conditionalName →
    Pending (.arguments 0) us →
    Pending .stages
      (⟨.sign .bar, r, p⟩ :: ⟨.name name, r', p'⟩ :: ⟨.mark .opening, r'', p''⟩ :: us)
  | bareStage {us name r p r' p'} :
    name ≠ conditionalName →
    Pending .stages us →
    Pending .stages (⟨.sign .bar, r, p⟩ :: ⟨.name name, r', p'⟩ :: us)
  | stage {n us vs name args r p r' p' r₁ p₁ r₂ p₂} :
    name ≠ conditionalName →
    Derives n us (.arguments args) →
    Pending .stages vs →
    Pending .stages
      (⟨.sign .bar, r, p⟩ :: ⟨.name name, r', p'⟩ :: ⟨.mark .opening, r₁, p₁⟩ ::
        (us ++ ⟨.mark .closing, r₂, p₂⟩ :: vs))

/-- The tokens make up the part. With those that are done there are at least two arguments, and not
more than that many commas separate unless there are two. -/
def Part.Complete (commas : Nat) (ts : List Token) : Part → Prop
  | .pipeline => ∃ n e, Derives n ts (.pipeline e)
  | .stages => ∃ n stages, Derives n ts (.stages stages)
  | .ternary => ∃ n e, Derives n ts (.ternary e)
  | .operand level => ∃ n e, Derives n ts (.operand level e)
  | .operators level => ∀ n us left, Derives n us (.operand level left) →
    ∃ m e, Derives m (us ++ ts) (.operand level e)
  | .unary => ∃ n e, Derives n ts (.unary e)
  | .primary => ∃ n e, Derives n ts (.primary e)
  | .arguments done => ∃ n arg args, Derives n ts (.arguments (arg :: args)) ∧
    1 ≤ done + args.length ∧ done + args.length ≤ max 1 (done + commas)

/-- A literal that may stand for any expression. -/
def truth : Token := ⟨.name "true", "true", ⟨0, 4⟩⟩

/-- A mark as a word. -/
def Mark.word (m : Mark) : Token := ⟨.mark m, m.text, ⟨0, m.text.length⟩⟩

/-- The words that complete what is begun. -/
def fillers : List Token := [truth, Mark.comma.word, Mark.closing.word, Mark.colon.word]

/-- Some of these words complete the part after the tokens, wherever they stand. -/
def Part.Completable (part : Part) (us : List Token) : Prop :=
  ∃ ws : List Token, (∀ w ∈ ws, w ∈ fillers) ∧
    ∀ zs : List Token, zs.map Token.lexeme = ws.map Token.lexeme →
      part.Complete (commas 0 us) (us ++ zs)

/-- A literal is an expression by itself. -/
lemma derives_truth {zs : List Token} (h : zs.map Token.lexeme = [truth].map Token.lexeme) :
    ∃ e, Derives 0 zs (Level.primary.phrase e) := by
  obtain ⟨t, rfl, ht⟩ := List.map_eq_singleton_iff.1 h
  refine ⟨_, .literal (v := .bool true) ?_⟩
  rw [ht]
  rfl

namespace Part

variable {part part' : Part} {us : List Token}

namespace Completable

/-- What is begun inside another part is completed first. -/
lemma within (h : part.Completable us) (pre ws : List Token) (hws : ∀ w ∈ ws, w ∈ fillers)
    (hpart : ∀ ts zs, part.Complete (commas 0 us) ts → zs.map Token.lexeme = ws.map Token.lexeme →
      part'.Complete (commas 0 (pre ++ us)) (pre ++ (ts ++ zs))) :
    part'.Completable (pre ++ us) := by
  obtain ⟨vs, hvs, hcomplete⟩ := h
  refine ⟨vs ++ ws, List.forall_mem_append.2 ⟨hvs, hws⟩, fun zs hzs => ?_⟩
  rw [List.map_append] at hzs
  obtain ⟨xs, ys, rfl, hxs, hys⟩ := List.map_eq_append_iff.1 hzs
  have hts := hpart _ ys (hcomplete xs hxs) hys
  rwa [List.append_assoc] at hts ⊢

/-- The other part may be complete with the inner one. -/
lemma last (h : part.Completable us) (pre : List Token)
    (hpart : ∀ ts, part.Complete (commas 0 us) ts →
      part'.Complete (commas 0 (pre ++ us)) (pre ++ ts)) :
    part'.Completable (pre ++ us) :=
  h.within pre [] (List.forall_mem_nil _) fun ts zs hts hzs => by
    obtain rfl := List.map_eq_nil_iff.1 hzs
    rw [List.append_nil]
    exact hpart ts hts

end Completable

/-- The words that are missing after an argument: a first one needs a second. -/
def padding : Nat → List Token
  | 0 => [Mark.comma.word, truth]
  | _ + 1 => []

lemma mem_padding {done : Nat} : ∀ w ∈ padding done, w ∈ fillers := by
  cases done with
  | zero => decide
  | succ done => exact List.forall_mem_nil _

/-- An argument and the words that are missing after it. -/
lemma complete_arguments {n ts e done zs} (count : Nat) (h : Derives n ts (.pipeline e))
    (hzs : zs.map Token.lexeme = (padding done).map Token.lexeme) :
    (Part.arguments done).Complete count (ts ++ zs) := by
  cases done with
  | zero =>
    obtain ⟨⟨_, r, p⟩, us, rfl, rfl, hus⟩ := List.map_eq_cons_iff.1 hzs
    obtain ⟨e', he'⟩ := derives_truth hus
    exact ⟨_, _, _, .argument h (.lastArgument he'.lower_pipeline), Nat.le_refl _,
      Nat.le_max_left _ _⟩
  | succ done =>
    obtain rfl := List.map_eq_nil_iff.1 hzs
    rw [List.append_nil]
    exact ⟨_, _, _, .lastArgument h, Nat.le_add_left _ _,
      Nat.le_trans (Nat.le_add_right _ _) (Nat.le_max_right _ _)⟩

end Part

namespace Pending

/-- Whatever is begun can be completed. -/
theorem completes {part us} (h : Pending part us) (hus : Sparse us) : part.Completable us := by
  induction h with
  | start =>
    refine ⟨[truth], by decide, fun zs hzs => ?_⟩
    obtain ⟨e, he⟩ := derives_truth hzs
    exact ⟨0, e, he⟩
  | @inner us r p _ ih =>
    refine (ih (hus.of_suffix (List.suffix_cons _ _))).within [_] [Mark.closing.word] (by decide)
      fun ts zs hts hzs => ?_
    obtain ⟨n, e, hts⟩ := hts
    obtain ⟨⟨_, r', p'⟩, rfl, rfl⟩ := List.map_eq_singleton_iff.1 hzs
    exact ⟨_, e, .group hts⟩
  | @group n us e r p h =>
    refine ⟨[Mark.closing.word], by decide, fun zs hzs => ?_⟩
    obtain ⟨⟨_, r', p'⟩, rfl, rfl⟩ := List.map_eq_singleton_iff.1 hzs
    exact ⟨_, e, .group h⟩
  | @call us name r p r' p' hname _ ih =>
    refine (ih (hus.of_suffix ?_)).within [_, _] [Mark.closing.word] (by decide)
      fun ts zs hts hzs => ?_
    · exact (List.suffix_cons _ _).trans (List.suffix_cons _ _)
    obtain ⟨n, arg, args, hts, hmin, hmax⟩ := hts
    obtain ⟨⟨_, r'', p''⟩, rfl, rfl⟩ := List.map_eq_singleton_iff.1 hzs
    by_cases hif : name = conditionalName
    · subst hif
      have hcommas : commas 0 us ≤ 2 := by
        have := hus _ ((List.mem_tails ..).2 List.suffix_rfl)
        simpa only [conditionalCommas, if_true] using this
      match args, hmin, hmax with
      | [a], _, _ => exact ⟨_, _, .conditional (b := none) hts⟩
      | [a, b], _, _ => exact ⟨_, _, .conditional (b := some b) hts⟩
      | _ :: _ :: _ :: _, _, hmax =>
        simp only [List.length_cons] at hmax
        omega
    · exact ⟨_, _, .call ⟨hname, hif⟩ hts⟩
  | @argument k us _ ih =>
    refine (ih hus).within [] (Part.padding k) Part.mem_padding fun ts zs hts hzs => ?_
    obtain ⟨n, e, hts⟩ := hts
    exact (Part.complete_arguments (commas 0 us) hts hzs :)
  | @lastArgument k n us e h =>
    exact ⟨Part.padding k, Part.mem_padding, fun zs hzs => Part.complete_arguments _ h hzs⟩
  | @nextArgument k n us vs e r p h _ ih =>
    have hsuffix : vs <:+ us ++ ⟨.mark .comma, r, p⟩ :: vs :=
      (List.suffix_cons _ _).trans (List.suffix_append _ _)
    have hcommas : commas 0 (us ++ ⟨.mark .comma, r, p⟩ :: vs) = commas 0 vs + 1 := by
      rw [h.commas_append (.inr nofun), commas_comma]
    rw [List.append_cons] at hcommas ⊢
    refine (ih (hus.of_suffix hsuffix)).last _ fun ts hts => ?_
    obtain ⟨m, arg, args, hts, hmin, hmax⟩ := hts
    rw [hcommas, List.append_assoc]
    refine ⟨_, _, _, .argument h hts, ?_, ?_⟩ <;> simp only [List.length_cons] at * <;> omega
  | @atom us _ ih =>
    refine (ih hus).last [] fun ts hts => ?_
    obtain ⟨n, e, hts⟩ := hts
    exact ⟨n, e, .atom hts⟩
  | @unary t us op hop _ ih =>
    refine (ih (hus.of_suffix (List.suffix_cons _ _))).last [t] fun ts hts => ?_
    obtain ⟨n, e, hts⟩ := hts
    exact ⟨_, _, .unary hop hts⟩
  | @factor us _ ih =>
    refine (ih hus).last [] fun ts hts => ?_
    obtain ⟨n, e, hts⟩ := hts
    exact ⟨n, e, .factor hts⟩
  | @tighter us level hlevel _ ih =>
    refine (ih hus).last [] fun ts hts => ?_
    obtain ⟨n, e, hts⟩ := hts
    exact ⟨n, e, .tighter hlevel hts⟩
  | @binary n us vs level e h _ ih =>
    exact (ih (hus.of_suffix (List.suffix_append _ _))).last us fun ts hts => hts n us e h
  | @right t us op hop _ ih =>
    refine (ih (hus.of_suffix (List.suffix_cons _ _))).last [t] fun ts hts => ?_
    obtain ⟨n, e, hts⟩ := hts
    exact fun m vs left hleft => ⟨_, _, .binary hop hleft hts⟩
  | @further n t us vs op e hop h _ ih =>
    have hsuffix : vs <:+ t :: (us ++ vs) :=
      (List.suffix_append _ _).trans (List.suffix_cons _ _)
    refine (ih (hus.of_suffix hsuffix)).last (t :: us) fun ts hts => fun m xs left hleft => ?_
    obtain ⟨k, e', he'⟩ := hts _ _ _ (.binary hop hleft h)
    rw [List.append_assoc] at he'
    exact ⟨k, e', he'⟩
  | @condition us _ ih =>
    refine (ih hus).last [] fun ts hts => ?_
    obtain ⟨n, e, hts⟩ := hts
    exact ⟨n, e, .choice hts⟩
  | @consequent n us vs c r p hc _ ih =>
    have hsuffix : vs <:+ us ++ ⟨.mark .question, r, p⟩ :: vs :=
      (List.suffix_cons _ _).trans (List.suffix_append _ _)
    rw [List.append_cons]
    refine (ih (hus.of_suffix hsuffix)).within _ [Mark.colon.word, truth] (by decide)
      fun ts zs hts hzs => ?_
    obtain ⟨m, a, hts⟩ := hts
    obtain ⟨⟨_, r', p'⟩, xs, rfl, rfl, hxs⟩ := List.map_eq_cons_iff.1 hzs
    obtain ⟨b, hb⟩ := derives_truth hxs
    change ∃ k e, Derives k _ (.ternary e)
    rw [List.append_assoc]
    exact ⟨_, _, .ternary hc hts (hb.lower_ternary (by decide))⟩
  | @colon n m us vs c a r p hc ha =>
    refine ⟨[Mark.colon.word, truth], by decide, fun zs hzs => ?_⟩
    obtain ⟨⟨_, r', p'⟩, xs, rfl, rfl, hxs⟩ := List.map_eq_cons_iff.1 hzs
    obtain ⟨b, hb⟩ := derives_truth hxs
    rw [List.append_assoc]
    exact ⟨_, _, .ternary hc ha (hb.lower_ternary (by decide))⟩
  | @alternate n m us vs ws c a r p r' p' hc ha _ ih =>
    have hsplit (xs : List Token) :
        us ++ ⟨.mark .question, r, p⟩ :: (vs ++ ⟨.mark .colon, r', p'⟩ :: xs) =
          (us ++ ⟨.mark .question, r, p⟩ :: (vs ++ [⟨.mark .colon, r', p'⟩])) ++ xs := by simp
    rw [hsplit] at hus ⊢
    refine (ih (hus.of_suffix (List.suffix_append _ _))).last _ fun ts hts => ?_
    obtain ⟨k, b, hb⟩ := hts
    change ∃ k e, Derives k _ (.ternary e)
    rw [← hsplit]
    exact ⟨_, _, .ternary hc ha hb⟩
  | @input us _ ih =>
    refine (ih hus).last [] fun ts hts => ?_
    obtain ⟨n, e, hts⟩ := hts
    exact ⟨n, e, Derives.lower_pipeline (l := .ternary) hts⟩
  | @piped n us vs e h _ ih =>
    refine (ih (hus.of_suffix (List.suffix_append _ _))).last us fun ts hts => ?_
    obtain ⟨m, stages, hts⟩ := hts
    exact ⟨_, _, .pipeline h hts⟩
  | @stageName r p =>
    refine ⟨[truth], by decide, fun zs hzs => ?_⟩
    obtain ⟨⟨_, r', p'⟩, rfl, rfl⟩ := List.map_eq_singleton_iff.1 hzs
    exact ⟨_, _, .bareStage (by decide) .noStages⟩
  | @stageArguments us name r p r' p' r'' p'' hname _ ih =>
    refine (ih (hus.of_suffix ?_)).within [_, _, _] [Mark.closing.word] (by decide)
      fun ts zs hts hzs => ?_
    · exact List.suffix_append [_, _, _] us
    obtain ⟨n, arg, args, hts, -, -⟩ := hts
    obtain ⟨⟨_, r₂, p₂⟩, rfl, rfl⟩ := List.map_eq_singleton_iff.1 hzs
    exact ⟨_, _, .stage hname hts .noStages⟩
  | @bareStage us name r p r' p' hname _ ih =>
    refine (ih (hus.of_suffix (List.suffix_append [_, _] us))).last [_, _] fun ts hts => ?_
    obtain ⟨n, stages, hts⟩ := hts
    exact ⟨_, _, .bareStage hname hts⟩
  | @stage n us vs name args r p r' p' r₁ p₁ r₂ p₂ hname h _ ih =>
    have hsplit (xs : List Token) :
        (⟨.sign .bar, r, p⟩ :: ⟨.name name, r', p'⟩ :: ⟨.mark .opening, r₁, p₁⟩ ::
            (us ++ ⟨.mark .closing, r₂, p₂⟩ :: xs) : List Token) =
          (⟨.sign .bar, r, p⟩ :: ⟨.name name, r', p'⟩ :: ⟨.mark .opening, r₁, p₁⟩ ::
            (us ++ [⟨.mark .closing, r₂, p₂⟩])) ++ xs := by simp
    rw [hsplit] at hus ⊢
    refine (ih (hus.of_suffix (List.suffix_append _ _))).last _ fun ts hts => ?_
    obtain ⟨m, stages, hts⟩ := hts
    change ∃ k stages, Derives k _ (.stages stages)
    rw [← hsplit]
    exact ⟨_, _, .stage hname h hts⟩

end Pending

end Stencil
