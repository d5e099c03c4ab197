import Stencil.Proofs.Grammar.Soundness

/-!
# The parser under a limit

A limit on depth changes nothing but where it is exceeded. Main statement:
`Expr.parseWhole_curbed`, a parse under a limit against the same parse under a laxer one. The relation
`Curbed` between their outcomes is respected by sequences (`Curbed.seq`) and by the checks of the
parser (`Curbed.guard`), and each function of the parser is made of these.
-/

namespace Stencil

/-- An outcome under a limit against the one under a laxer limit: the same value, the same malformed
syntax, or the fault of a depth that is too great. A limit that allows the depth `most` has no such
fault. -/
inductive Curbed (limit : Option Quantity) (most : Nat) {α : Type} :
    Except SyntaxFault α → Except SyntaxFault α → Prop where
  | value (a : α) : Curbed limit most (.ok a) (.ok a)
  | malformed {fault : SyntaxFault} :
    fault.isLimit = false →
    Curbed limit most (.error fault) (.error fault)
  | deep {offset : Nat} {r' : Except SyntaxFault α} :
    ¬ Within limit most →
    Curbed limit most (.error (.tooDeep offset)) r'

/-- A check under a limit against the one under a laxer limit, in the same way. -/
inductive Guarded (limit : Option Quantity) (most : Nat) :
    Option SyntaxFault → Option SyntaxFault → Prop where
  | passed : Guarded limit most none none
  | malformed {fault : SyntaxFault} :
    fault.isLimit = false →
    Guarded limit most (some fault) (some fault)
  | deep {offset : Nat} {c' : Option SyntaxFault} :
    ¬ Within limit most →
    Guarded limit most (some (.tooDeep offset)) c'

namespace Curbed

variable {limit : Option Quantity} {most : Nat} {α β : Type}

lemma eq_or_deep {r r' : Except SyntaxFault α} (h : Curbed limit most r r') :
    r = r' ∨ ∃ offset, r = .error (.tooDeep offset) := by
  cases h with
  | value a => exact .inl rfl
  | malformed _ => exact .inl rfl
  | deep _ => exact .inr ⟨_, rfl⟩

lemma eq_of_within {r r' : Except SyntaxFault α} (h : Curbed limit most r r')
    (hmost : Within limit most) : r = r' := by
  cases h with
  | value a => rfl
  | malformed _ => rfl
  | deep h => exact absurd hmost h

lemma isLimit_of_within {fault : SyntaxFault} {r' : Except SyntaxFault α}
    (h : Curbed limit most (.error fault) r') (hmost : Within limit most) :
    fault.isLimit = false := by
  cases h with
  | malformed h => exact h
  | deep h => exact absurd hmost h

/-- What fails where related parts do, and is related where they have a value, is related. -/
lemma seq {r r' : Except SyntaxFault α} {q q' : Except SyntaxFault β} (h : Curbed limit most r r')
    (hq : ∀ fault, r = .error fault → q = .error fault)
    (hq' : ∀ fault, r' = .error fault → q' = .error fault)
    (hv : ∀ a, r = .ok a → r' = .ok a → Curbed limit most q q') : Curbed limit most q q' := by
  cases h with
  | value a => exact hv a rfl rfl
  | malformed h =>
    rw [hq _ rfl, hq' _ rfl]
    exact .malformed h
  | deep h =>
    rw [hq _ rfl]
    exact .deep h

lemma mono {most' : Nat} {r r' : Except SyntaxFault α} (h : Curbed limit most r r')
    (hle : most ≤ most') : Curbed limit most' r r' := by
  cases h with
  | value a => exact .value a
  | malformed h => exact .malformed h
  | deep h => exact .deep fun hmost => h (hmost.mono hle)

/-- What follows related checks is related. -/
lemma guard {c c' : Option SyntaxFault} {r r' : Except SyntaxFault α} :
    Guarded limit most c c' → Curbed limit most r r' →
    Curbed limit most
      (match c with | some fault => .error fault | none => r)
      (match c' with | some fault => .error fault | none => r') := by
  intro h hr
  cases h with
  | passed => exact hr
  | malformed h => exact .malformed h
  | deep h => exact .deep h

end Curbed

lemma Guarded.orElse {limit most c c' d d'} (hc : Guarded limit most c c')
    (hd : Guarded limit most d d') : Guarded limit most (c <|> d) (c' <|> d') := by
  cases hc with
  | passed => exact hd
  | malformed h => exact .malformed h
  | deep h => exact .deep h

namespace Setting

/-- The setting with another limit. -/
def under (s : Setting) (limit : Option Quantity) : Setting := { s with maxDepth := limit }

/-- The other limit allows whatever that of the setting does, and a fault that ends the tokens is
one of the syntax. -/
structure Laxer (s : Setting) (limit : Option Quantity) : Prop where
  within {depth : Nat} : Within s.maxDepth depth → Within limit depth
  proper {fault : SyntaxFault} : s.last = .error fault → fault.isLimit = false

namespace Laxer

variable {s : Setting} {limit : Option Quantity} {most depth : Nat} {ts : List Token}

lemma refuse (h : s.Laxer limit) (expected : Expected) (ts : List Token) :
    (s.refuse expected ts).isLimit = false := by
  unfold Setting.refuse
  split
  · rfl
  · split
    · next heq => exact h.proper heq
    · split
      · split <;> rfl
      · rfl

lemma blocked (h : s.Laxer limit) :
    Guarded s.maxDepth most (s.blocked? ts) ((s.under limit).blocked? ts) := by
  change Guarded s.maxDepth most (s.blocked? ts) (s.blocked? ts)
  cases ts with
  | cons => exact .passed
  | nil =>
    cases hlast : s.last with
    | error fault =>
      rw [show s.blocked? [] = some fault by rw [blocked?, hlast]]
      exact .malformed (h.proper hlast)
    | ok t =>
      rw [show s.blocked? [] = none by rw [blocked?, hlast]]
      exact .passed

lemma tooDeep (h : s.Laxer limit) (hd : depth ≤ most) :
    Guarded s.maxDepth most (s.tooDeep? depth ts) ((s.under limit).tooDeep? depth ts) := by
  by_cases hs : s.Allows depth
  · have hs' : (s.under limit).Allows depth := h.within hs
    rw [tooDeep?_eq_none.2 hs, tooDeep?_eq_none.2 hs']
    exact .passed
  · cases htd : s.tooDeep? depth ts with
    | none => exact absurd (tooDeep?_eq_none.1 htd) hs
    | some fault =>
      unfold Setting.tooDeep? at htd
      split at htd
      · split at htd
        · cases htd
          exact .deep fun hmost => hs (hmost.mono hd)
        · cases htd
      · cases htd

lemma barred (h : s.Laxer limit) (hd : depth ≤ most) :
    Guarded s.maxDepth most (s.barred? depth ts) ((s.under limit).barred? depth ts) :=
  h.blocked.orElse (h.tooDeep hd)

end Laxer

end Setting

namespace Expr

variable {s : Setting} {limit : Option Quantity} {most size : Nat}

/-- Parses of pipelines are related on fewer than `size` tokens. -/
def CurbedBelow (s : Setting) (limit : Option Quantity) (most size : Nat) : Prop :=
  ∀ d ts, ts.length < size → d + ts.length ≤ most →
    Curbed s.maxDepth most (parsePipeline s d ts) (parsePipeline (s.under limit) d ts)

lemma parseMoreArguments_curbed (h : s.Laxer limit) (ih : CurbedBelow s limit most size) (d : Nat)
    {ts} (done : Step (List Expr) ts) (hsize : done.rest.length < size)
    (hd : d + done.rest.length ≤ most) :
    Curbed s.maxDepth most (parseMoreArguments s d done)
      (parseMoreArguments (s.under limit) d done) := by
  rw [parseMoreArguments, parseMoreArguments]
  apply (ih d _ hsize hd).seq (fun _ ha => by simp only [ha]) (fun _ ha => by simp only [ha])
  intro arg ha ha'
  simp only [ha, ha']
  have hlt := arg.shorter
  split
  · next r p rest hr =>
    have hlen : arg.rest.length = rest.length + 1 := by simp [hr]
    apply Curbed.guard h.blocked
    apply parseMoreArguments_curbed h ih
    · dsimp only
      omega
    · dsimp only
      omega
  · apply Curbed.guard h.blocked
    exact .value _
  · exact .malformed (h.refuse ..)
termination_by done.rest.length
decreasing_by omega

lemma parseArguments_curbed (h : s.Laxer limit) (ih : CurbedBelow s limit most size) (d : Nat)
    (opening : Token) (rest : List Token) (hsize : rest.length < size)
    (hd : d + rest.length ≤ most) :
    Curbed s.maxDepth most (parseArguments s d opening rest)
      (parseArguments (s.under limit) d opening rest) := by
  unfold parseArguments
  apply Curbed.guard ((h.tooDeep (by omega)).orElse h.blocked)
  split
  · apply Curbed.guard h.blocked
    exact .value _
  · exact parseMoreArguments_curbed h ih d _ hsize hd

lemma isLimit_ofCall {t name args stop fault} (h : ofCall t name args stop = .error fault) :
    fault.isLimit = false := by
  unfold ofCall at h
  split at h
  · split at h
    · cases h
    · cases h
    · cases h
      rfl
  · cases h

lemma parsePrimary_curbed (h : s.Laxer limit) (ih : CurbedBelow s limit most size) (d : Nat)
    (t : Token) (rest : List Token) (hsize : rest.length < size) (hd : d + 1 + rest.length ≤ most) :
    Curbed s.maxDepth most (parsePrimary s d t rest) (parsePrimary (s.under limit) d t rest) := by
  rw [parsePrimary, parsePrimary]
  split
  · apply Curbed.guard h.blocked
    split
    · exact .value _
    · exact .malformed rfl
  · apply Curbed.guard h.blocked
    exact .value _
  · apply Curbed.guard h.blocked
    exact .value _
  · apply Curbed.guard h.blocked
    split
    · exact .value _
    · split
      · next r p rest =>
        rw [List.length_cons] at hsize hd
        have hargs := parseArguments_curbed h ih (d + 1) ⟨.mark .opening, r, p⟩ rest (by omega)
          (by omega)
        apply hargs.seq (fun _ ha => by simp only [ha]) (fun _ ha => by simp only [ha])
        intro args ha ha'
        simp only [ha, ha']
        split
        · next hcall => exact .malformed (isLimit_ofCall hcall)
        · exact .value _
      · exact .malformed rfl
  · apply Curbed.guard (h.barred (by omega))
    apply (ih (d + 1) rest hsize hd).seq (fun _ hi => by simp only [hi])
      (fun _ hi => by simp only [hi])
    intro inner hi hi'
    simp only [hi, hi']
    split
    · apply Curbed.guard h.blocked
      exact .value _
    · exact .malformed (h.refuse ..)
  · exact .malformed (h.refuse ..)

lemma parseUnary_curbed (h : s.Laxer limit) (ih : CurbedBelow s limit most size) (d : Nat)
    (ts : List Token) (hsize : ts.length ≤ size) (hd : d + ts.length ≤ most) :
    Curbed s.maxDepth most (parseUnary s d ts) (parseUnary (s.under limit) d ts) := by
  induction ts generalizing d with
  | nil =>
    rw [parseUnary, parseUnary]
    exact .malformed (h.refuse ..)
  | cons t rest ihts =>
    rw [List.length_cons] at hsize hd
    rw [parseUnary, parseUnary]
    split
    · apply Curbed.guard (h.barred (by omega))
      apply (ihts (d + 1) (by omega) (by omega)).seq (fun _ ho => by simp only [ho])
        (fun _ ho => by simp only [ho])
      intro operand ho ho'
      simp only [ho, ho']
      exact .value _
    · exact parsePrimary_curbed h ih d t rest hsize (by omega)

lemma parseOperators_curbed (h : s.Laxer limit) (d level : Nat)
    (operand : ∀ ts, ts.length ≤ size → d + ts.length ≤ most →
      Curbed s.maxDepth most (parseOperand s d (level + 1) ts)
        (parseOperand (s.under limit) d (level + 1) ts))
    {ts} (left : Step Expr ts) (hsize : left.rest.length ≤ size)
    (hd : d + left.rest.length ≤ most) :
    Curbed s.maxDepth most (parseOperators s d level left)
      (parseOperators (s.under limit) d level left) := by
  rw [parseOperators, parseOperators]
  split
  · exact .value _
  · next t rest hr =>
    have hlen : left.rest.length = rest.length + 1 := by simp [hr]
    split
    · exact .value _
    · split
      · apply Curbed.guard h.blocked
        apply (operand rest (by omega) (by omega)).seq (fun _ hr => by simp only [hr])
          (fun _ hr => by simp only [hr])
        intro right hr hr'
        simp only [hr, hr']
        have hlt := right.shorter
        apply parseOperators_curbed h d level operand
        · dsimp only
          omega
        · dsimp only
          omega
      · exact .value _
termination_by left.rest.length
decreasing_by omega

lemma parseOperand_curbed (h : s.Laxer limit) (ih : CurbedBelow s limit most size) (d level : Nat)
    (ts : List Token) (hsize : ts.length ≤ size) (hd : d + ts.length ≤ most) :
    Curbed s.maxDepth most (parseOperand s d level ts)
      (parseOperand (s.under limit) d level ts) := by
  unfold parseOperand
  split
  · next hlt =>
    have operand := parseOperand_curbed h ih d (level + 1)
    apply (operand ts hsize hd).seq (fun _ hl => by simp only [hl]) (fun _ hl => by simp only [hl])
    intro left hl hl'
    simp only [hl, hl']
    have hshort := left.shorter
    exact parseOperators_curbed h d level operand left (by omega) (by omega)
  · exact parseUnary_curbed h ih d ts hsize hd
termination_by BinaryOp.levels - level

lemma parseTernary_curbed (h : s.Laxer limit) (ih : CurbedBelow s limit most size) (d : Nat)
    (ts : List Token) (hsize : ts.length ≤ size) (hd : d + ts.length ≤ most) :
    Curbed s.maxDepth most (parseTernary s d ts) (parseTernary (s.under limit) d ts) := by
  rw [parseTernary, parseTernary]
  apply (parseOperand_curbed h ih d 0 ts hsize hd).seq (fun _ hc => by simp only [hc])
    (fun _ hc => by simp only [hc])
  intro condition hc hc'
  simp only [hc, hc']
  have hlt := condition.shorter
  split
  · next rest hr =>
    have hlen : condition.rest.length = rest.length + 1 := by simp [hr]
    apply Curbed.guard (h.barred (by omega))
    apply (parseTernary_curbed h ih (d + 1) rest (by omega) (by omega)).seq
      (fun _ ha => by simp only [ha]) (fun _ ha => by simp only [ha])
    intro consequent ha ha'
    simp only [ha, ha']
    have hlt' := consequent.shorter
    split
    · next rest' hr' =>
      have hlen' : consequent.rest.length = rest'.length + 1 := by simp [hr']
      apply Curbed.guard (h.barred (by omega))
      apply (parseTernary_curbed h ih (d + 1) rest' (by omega) (by omega)).seq
        (fun _ hz => by simp only [hz]) (fun _ hz => by simp only [hz])
      intro alternate hz hz'
      simp only [hz, hz']
      exact .value _
    · exact .malformed (h.refuse ..)
  · exact .value _
termination_by ts.length
decreasing_by all_goals omega

lemma parseStages_curbed (h : s.Laxer limit) (ih : CurbedBelow s limit most size) (d : Nat) {ts}
    (input : Step Expr ts) (done : List Stage) (hsize : input.rest.length < size)
    (hd : d + input.rest.length ≤ most) :
    Curbed s.maxDepth most (parseStages s d input done)
      (parseStages (s.under limit) d input done) := by
  rw [parseStages, parseStages]
  split
  · apply Curbed.guard h.blocked
    split
    · next rest hr _ =>
      split
      · exact .malformed (h.refuse ..)
      · apply Curbed.guard h.blocked
        split
        · next r p rest hr _ =>
          have hlen : input.rest.length = rest.length + 3 := by simp [hr]
          have hargs := parseArguments_curbed h ih (d + 1) ⟨.mark .opening, r, p⟩ rest
            (by omega) (by omega)
          apply hargs.seq (fun _ ha => by simp only [ha]) (fun _ ha => by simp only [ha])
          intro args ha ha'
          simp only [ha, ha']
          have hlt : args.rest.length < rest.length + 1 := args.shorter
          apply parseStages_curbed h ih
          · dsimp only
            omega
          · dsimp only
            omega
        · have hlen : input.rest.length = rest.length + 2 := by simp [hr]
          apply parseStages_curbed h ih
          · dsimp only
            omega
          · dsimp only
            omega
    · exact .malformed (h.refuse ..)
  · exact .value _
termination_by input.rest.length
decreasing_by all_goals omega

lemma curbedBelow (h : s.Laxer limit) (most size : Nat) : CurbedBelow s limit most size := by
  induction size with
  | zero =>
    intro d ts hsize
    exact absurd hsize (Nat.not_lt_zero _)
  | succ size ih =>
    intro d ts hsize hd
    rw [parsePipeline, parsePipeline]
    -- what nests deeper starts a pipeline again after at least one token more
    apply (parseTernary_curbed h ih d ts (Nat.le_of_lt_succ hsize) hd).seq
      (fun _ hi => by simp only [hi]) (fun _ hi => by simp only [hi])
    intro input hi hi'
    simp only [hi, hi']
    have hlt := input.shorter
    exact parseStages_curbed h ih d input [] (by omega) (by omega)

/-- A parse under a limit is the one under a laxer limit, unless it goes too deep. No parse goes
deeper than one for each token. -/
theorem parseWhole_curbed (h : s.Laxer limit) (final : Lexeme) (expected : Expected)
    (ts : List Token) :
    Curbed s.maxDepth (1 + ts.length) (parseWhole s final expected ts)
      (parseWhole (s.under limit) final expected ts) := by
  have hpipeline := curbedBelow h (1 + ts.length) (ts.length + 1) 1 ts (Nat.lt_succ_self _)
    (Nat.le_refl _)
  unfold parseWhole
  apply Curbed.guard (h.tooDeep (Nat.le_add_right ..))
  apply hpipeline.seq (fun _ hp => by simp only [hp]) (fun _ hp => by simp only [hp])
  intro step hp hp'
  simp only [hp, hp']
  dsimp only [Setting.under]
  split
  · split
    · exact .value _
    · exact .malformed (h.refuse ..)
  · exact .malformed (h.refuse ..)

end Expr

end Stencil
