import Stencil.Proofs.Grammar.Basic
import Stencil.Proofs.Number.Quantity

/-!
# Soundness of the parser

What the parser reads is derived by the grammar, from the tokens that it passed and within the depth
that its limit allows.
-/

namespace Stencil

/-- Whether a depth is within a limit, if there is one. -/
def Within (limit : Option Quantity) (depth : Nat) : Prop :=
  ∀ q, limit = some q → q.lt depth = false

/-- Without a limit every depth is allowed. -/
lemma within_none {d} : Within none d := by
  intro q hq
  cases hq

/-- A limit that allows a depth allows all below it. -/
lemma Within.mono {limit} {d d' : Nat} (h : Within limit d) (hd : d' ≤ d) : Within limit d' := by
  intro q hq
  rw [Bool.eq_false_iff]
  intro hlt
  have := Quantity.lt_mono hlt hd
  rw [h q hq] at this
  cases this

/-- Whether the parse may go so deep. -/
def Setting.Allows (s : Setting) (depth : Nat) : Prop := Within s.maxDepth depth

/-- The tokens `ts` begin with a phrase, and `rest` follows it. -/
def Setting.Reads (s : Setting) (depth : Nat) (ts rest : List Token) (p : Phrase) : Prop :=
  ∃ us n, ts = us ++ rest ∧ Derives n us p ∧ s.Allows (depth + n)

namespace Setting

lemma tooDeep?_eq_none {s : Setting} {d ts} : s.tooDeep? d ts = none ↔ s.Allows d := by
  unfold tooDeep? Allows Within
  cases s.maxDepth with
  | none => simp
  | some limit => simp

/-- A passed bar check allows the depth. -/
lemma allows_of_barred? {s : Setting} {d ts} (h : s.barred? d ts = none) : s.Allows d := by
  rw [barred?, Option.orElse_eq_orElse, Option.orElse_eq_or, Option.or_eq_none_iff] at h
  exact tooDeep?_eq_none.1 h.2

lemma Allows.mono {s : Setting} {d d' : Nat} (h : s.Allows d) (hd : d' ≤ d) : s.Allows d' :=
  Within.mono h hd

lemma Allows.here {s : Setting} {d n : Nat} (h : s.Allows (d + n)) : s.Allows d :=
  h.mono (Nat.le_add_right ..)

lemma Allows.succ {s : Setting} {d n : Nat} (h : s.Allows (d + (n + 1))) : s.Allows (d + 1 + n) :=
  h.mono (by omega)

lemma Allows.left {s : Setting} {d n m : Nat} (h : s.Allows (d + max n m)) : s.Allows (d + n) :=
  h.mono (by omega)

lemma Allows.right {s : Setting} {d n m : Nat} (h : s.Allows (d + max n m)) : s.Allows (d + m) :=
  h.mono (by omega)

lemma Allows.max {s : Setting} {d n m : Nat} (hn : s.Allows (d + n)) (hm : s.Allows (d + m)) :
    s.Allows (d + max n m) := by
  rcases Nat.le_total n m with h | h
  · rw [Nat.max_eq_right h]; exact hm
  · rw [Nat.max_eq_left h]; exact hn

end Setting

lemma BinaryOp.level_lt (op : BinaryOp) : op.level < BinaryOp.levels := by
  cases op <;> decide

namespace Expr

open Setting

/-- The node of a call is derived from its arguments. -/
lemma ofCall_sound {n us name args e r p r₁ p₁ r₂ p₂}
    (hname : keywordLiteral? name = none) (hus : Derives n us (.arguments args))
    (h : ofCall ⟨.name name, r, p⟩ name args p₂.stop = .ok e) :
    Derives (n + 1)
      (⟨.name name, r, p⟩ :: ⟨.mark .opening, r₁, p₁⟩ :: (us ++ [⟨.mark .closing, r₂, p₂⟩]))
      (.primary e) := by
  unfold ofCall at h
  split at h
  · next hif =>
    subst hif
    match args, h with
    | [c, a], h => cases h; exact .conditional (b := none) hus
    | [c, a, z], h => cases h; exact .conditional (b := some z) hus
  · next hif =>
    cases h
    exact .call ⟨hname, hif⟩ hus

/-- What the parser of pipelines reads is derived, on fewer than `size` tokens. -/
def SoundBelow (s : Setting) (size : Nat) : Prop :=
  ∀ {d ts step}, ts.length < size → s.Allows d → parsePipeline s d ts = .ok step →
    s.Reads d ts step.rest (.pipeline step.value)

lemma parseMoreArguments_sound {s d ts step size} {done : Step (List Expr) ts}
    (ih : SoundBelow s size) (hsize : done.rest.length < size) (hd : s.Allows d)
    (h : parseMoreArguments s d done = .ok step) :
    ∃ us n arg args r p, done.rest = us ++ ⟨.mark .closing, r, p⟩ :: step.rest ∧
      Derives n us (.arguments (arg :: args)) ∧ s.Allows (d + n) ∧
      step.value = done.value ++ arg :: args ∧ step.stop = p.stop := by
  rw [parseMoreArguments] at h
  split at h
  · cases h
  · next arg ha =>
    obtain ⟨us, n, e, hus, hn⟩ := ih hsize hd ha
    have hlt := arg.shorter
    split at h
    · next r₀ p₀ rest hr =>
      have hlen : arg.rest.length = rest.length + 1 := by simp [hr]
      split at h
      · cases h
      · obtain ⟨vs, m, arg', args, r, p, e', hvs, hm, hv, hstop⟩ :=
          parseMoreArguments_sound ih (by dsimp only; omega) hd h
        have key : done.rest = (us ++ ⟨.mark .comma, r₀, p₀⟩ :: vs) ++
            ⟨.mark .closing, r, p⟩ :: step.rest := by
          rw [e, hr, show rest = _ from e']; simp
        exact ⟨_, _, _, _, r, p, key, .argument hus hvs, hn.max hm, by rw [hv]; simp, hstop⟩
    · next r p rest hr =>
      split at h
      · cases h
      · cases h
        exact ⟨us, n, _, [], r, p, e.trans (congrArg (us ++ ·) hr), .lastArgument hus, hn, rfl, rfl⟩
    · cases h
termination_by done.rest.length
decreasing_by omega

lemma parseArguments_sound {s d opening rest step size} (ih : SoundBelow s size)
    (hsize : rest.length < size) (h : parseArguments s d opening rest = .ok step) :
    ∃ us n r p, rest = us ++ ⟨.mark .closing, r, p⟩ :: step.rest ∧
      Derives n us (.arguments step.value) ∧ s.Allows (d + n) ∧ step.stop = p.stop := by
  unfold parseArguments at h
  split at h
  · cases h
  · next hb =>
    have hd : s.Allows d := by
      rw [Option.orElse_eq_orElse, Option.orElse_eq_or, Option.or_eq_none_iff] at hb
      exact tooDeep?_eq_none.1 hb.1
    split at h
    · split at h
      · cases h
      · cases h
        exact ⟨[], 0, _, _, rfl, .noArguments, hd, rfl⟩
    · obtain ⟨us, n, arg, args, r, p, e, hus, hn, hv, hstop⟩ :=
        parseMoreArguments_sound ih hsize hd h
      exact ⟨us, n, r, p, e, by rw [hv]; exact hus, hn, hstop⟩

lemma parsePrimary_sound {s d t rest step size} (ih : SoundBelow s size)
    (hsize : rest.length < size) (hd : s.Allows d) (h : parsePrimary s d t rest = .ok step) :
    s.Reads d (t :: rest) step.rest (.primary step.value) := by
  obtain ⟨l, r, p⟩ := t
  rw [parsePrimary] at h
  split at h
  · next text hl =>
    cases hl
    split at h
    · cases h
    · split at h
      · next hv =>
        cases h
        exact ⟨[_], 0, rfl, .literal hv, hd⟩
      · cases h
  · next value hl =>
    cases hl
    split at h
    · cases h
    · cases h
      exact ⟨[_], 0, rfl, .literal rfl, hd⟩
  · next source path hl =>
    cases hl
    split at h
    · cases h
    · cases h
      exact ⟨[_], 0, rfl, .access, hd⟩
  · next name hl =>
    cases hl
    split at h
    · cases h
    · split at h
      · next hv =>
        cases h
        exact ⟨[_], 0, rfl, .literal hv, hd⟩
      · next hk =>
        split at h
        · next r₁ p₁ rest _ =>
          split at h
          · cases h
          · next args ha =>
            obtain ⟨us, n, r₂, p₂, e, hus, hn, hstop⟩ :=
              parseArguments_sound ih (Nat.lt_of_succ_lt hsize) ha
            have key : (⟨.name name, r, p⟩ :: ⟨.mark .opening, r₁, p₁⟩ :: rest : List Token) =
                (⟨.name name, r, p⟩ :: ⟨.mark .opening, r₁, p₁⟩ ::
                  (us ++ [⟨.mark .closing, r₂, p₂⟩])) ++ args.rest := by
              refine (congrArg (_ :: _ :: ·) e).trans ?_
              simp
            rw [Nat.add_right_comm] at hn
            split at h
            · cases h
            · next e hcall =>
              cases h
              exact ⟨_, _, key, ofCall_sound hk hus (hstop ▸ hcall), hn⟩
        · cases h
  · next hl =>
    cases hl
    split at h
    · cases h
    · next hb =>
      split at h
      · cases h
      · next inner hi =>
        obtain ⟨us, n, e, hus, hn⟩ := ih hsize (allows_of_barred? hb) hi
        rw [Nat.add_right_comm] at hn
        split at h
        · next r₂ p₂ rest' hr =>
          split at h
          · cases h
          · cases h
            have key : (⟨.mark .opening, r, p⟩ :: rest : List Token) =
                (⟨.mark .opening, r, p⟩ :: (us ++ [⟨.mark .closing, r₂, p₂⟩])) ++ rest' := by
              refine (congrArg (_ :: ·) e).trans ?_
              rw [hr]; simp
            exact ⟨_, _, key, .group hus, hn⟩
        · cases h
  · cases h

lemma parseUnary_sound {s d ts step size} (ih : SoundBelow s size) (hsize : ts.length ≤ size)
    (hd : s.Allows d) (h : parseUnary s d ts = .ok step) :
    s.Reads d ts step.rest (.unary step.value) := by
  induction ts generalizing d with
  | nil => rw [parseUnary] at h; cases h
  | cons t rest ihts =>
    rw [parseUnary] at h
    split at h
    · next op hop =>
      split at h
      · cases h
      · next hb =>
        split at h
        · cases h
        · next operand ho =>
          cases h
          obtain ⟨us, n, e, hus, hn⟩ :=
            ihts (Nat.le_of_succ_le hsize) (allows_of_barred? hb) ho
          refine ⟨t :: us, n + 1, ?_, .unary hop hus, ?_⟩
          · exact congrArg (t :: ·) e
          · rwa [Nat.add_comm n 1, ← Nat.add_assoc]
    · obtain ⟨us, n, e, hus, hn⟩ := parsePrimary_sound ih hsize hd h
      exact ⟨us, n, e, .atom hus, hn⟩

/-- The loop over the operators of a level, where the operands of the next level are sound. -/
lemma parseOperators_sound {s d level ts step pre n size} {left : Step Expr ts}
    (operand : ∀ {ts step}, ts.length ≤ size → parseOperand s d (level + 1) ts = .ok step →
      s.Reads d ts step.rest (.operand (level + 1) step.value))
    (hsize : left.rest.length ≤ size) (hpre : Derives n pre (.operand level left.value))
    (hn : s.Allows (d + n)) (h : parseOperators s d level left = .ok step) :
    ∃ us m, left.rest = us ++ step.rest ∧ Derives m (pre ++ us) (.operand level step.value) ∧
      s.Allows (d + m) := by
  have stop : ∃ us m, left.rest = us ++ left.rest ∧
      Derives m (pre ++ us) (.operand level left.value) ∧ s.Allows (d + m) :=
    ⟨[], n, rfl, by rwa [List.append_nil], hn⟩
  rw [parseOperators] at h
  split at h
  · cases h; exact stop
  · next t rest hr =>
    split at h
    · cases h; exact stop
    · next op hop =>
      split at h
      · next hlevel =>
        subst hlevel
        split at h
        · cases h
        · split at h
          · cases h
          · next right hright =>
            have hlen : left.rest.length = rest.length + 1 := by simp [hr]
            have hlt := right.shorter
            obtain ⟨us, m, e, hus, hm⟩ := operand (by omega) hright
            -- what is read so far is the left operand, so the level associates to the left
            obtain ⟨vs, k, e', hvs, hk⟩ :=
              parseOperators_sound operand (by dsimp only; omega) (.binary hop hpre hus)
                (hn.max hm) h
            refine ⟨t :: us ++ vs, k, ?_, ?_, hk⟩
            · rw [hr, e, e']; simp
            · rw [List.append_assoc] at hvs; exact hvs
      · cases h; exact stop
termination_by left.rest.length
decreasing_by omega

lemma parseOperand_sound {s d level ts step size} (ih : SoundBelow s size)
    (hsize : ts.length ≤ size) (hl : level ≤ BinaryOp.levels) (hd : s.Allows d)
    (h : parseOperand s d level ts = .ok step) :
    s.Reads d ts step.rest (.operand level step.value) := by
  rw [parseOperand] at h
  split at h
  · next hlt =>
    split at h
    · cases h
    · next left hleft =>
      have hshort := left.shorter
      obtain ⟨us, n, e, hus, hn⟩ := parseOperand_sound ih hsize hlt hd hleft
      obtain ⟨vs, m, e', hvs, hm⟩ :=
        parseOperators_sound (fun hts h => parseOperand_sound ih hts hlt hd h) (by omega)
          (.tighter hlt hus) hn h
      exact ⟨us ++ vs, m, e.trans (by rw [e', List.append_assoc]), hvs, hm⟩
  · obtain ⟨us, n, e, hus, hn⟩ := parseUnary_sound ih hsize hd h
    have hl : level = BinaryOp.levels := by omega
    exact ⟨us, n, e, hl ▸ .factor hus, hn⟩
termination_by BinaryOp.levels - level

lemma parseTernary_sound {s d ts step size} (ih : SoundBelow s size) (hsize : ts.length ≤ size)
    (hd : s.Allows d) (h : parseTernary s d ts = .ok step) :
    s.Reads d ts step.rest (.ternary step.value) := by
  rw [parseTernary] at h
  split at h
  · cases h
  · next condition hc =>
    have hlt := condition.shorter
    obtain ⟨us, n, e, hus, hn⟩ := parseOperand_sound ih hsize (Nat.zero_le _) hd hc
    split at h
    · next r₁ p₁ rest hr =>
      have hlen : condition.rest.length = rest.length + 1 := by simp [hr]
      split at h
      · cases h
      · next hb =>
        split at h
        · cases h
        · next consequent ha =>
          have hlt' := consequent.shorter
          obtain ⟨vs, m, e₁, hvs, hm⟩ :=
            parseTernary_sound ih (by omega) (allows_of_barred? hb) ha
          split at h
          · next r₂ p₂ rest' hr' =>
            have hlen' : consequent.rest.length = rest'.length + 1 := by simp [hr']
            split at h
            · cases h
            · next hb' =>
              split at h
              · cases h
              · next alternate hz =>
                cases h
                obtain ⟨ws, k, e₂, hws, hk⟩ :=
                  parseTernary_sound ih (by omega) (allows_of_barred? hb') hz
                have key : ts = (us ++ ⟨.mark .question, r₁, p₁⟩ ::
                    (vs ++ ⟨.mark .colon, r₂, p₂⟩ :: ws)) ++ alternate.rest := by
                  calc
                    ts = us ++ ⟨.mark .question, r₁, p₁⟩ ::
                        (vs ++ ⟨.mark .colon, r₂, p₂⟩ :: rest') := by rw [e, hr, e₁, hr']
                    _ = us ++ ⟨.mark .question, r₁, p₁⟩ ::
                        (vs ++ ⟨.mark .colon, r₂, p₂⟩ :: (ws ++ alternate.rest)) :=
                      congrArg (fun l => us ++ _ :: (vs ++ _ :: l)) e₂
                    _ = _ := by simp
                refine ⟨_, _, key, .ternary hus hvs hws, hn.max ?_⟩
                rw [Nat.add_comm _ 1, ← Nat.add_assoc]
                exact hm.max hk
          · cases h
    · cases h
      exact ⟨us, n, e, .choice hus, hn⟩
termination_by ts.length
decreasing_by all_goals omega

lemma parseStages_sound {s d ts done step size} {input : Step Expr ts} (ih : SoundBelow s size)
    (hsize : input.rest.length < size) (hd : s.Allows d)
    (hdone : ∀ last, done.getLast? = some last → last.span.stop = input.stop)
    (h : parseStages s d input done = .ok step) :
    ∃ us n more, input.rest = us ++ step.rest ∧ Derives n us (.stages more) ∧ s.Allows (d + n) ∧
      step.value = input.value.piped (done ++ more) := by
  rw [parseStages] at h
  split at h
  · next r₀ p₀ rest hr =>
    split at h
    · cases h
    · split at h
      · next name r p rest hr _ =>
        split at h
        · cases h
        · next hname =>
          split at h
          · cases h
          · split at h
            · next r₁ p₁ rest hr _ _ =>
              split at h
              · cases h
              · next args ha =>
                have hlen : input.rest.length = rest.length + 3 := by simp [hr]
                have hlt : args.rest.length < rest.length + 1 := args.shorter
                obtain ⟨us, n, r₂, p₂, e, hus, hn, hstop⟩ :=
                  parseArguments_sound ih (by omega) ha
                obtain ⟨vs, m, more, e', hvs, hm, hv⟩ :=
                  parseStages_sound ih (by dsimp only; omega) hd (by simp [Stage.span]) h
                have key : input.rest = (⟨.sign .bar, r₀, p₀⟩ :: ⟨.name name, r, p⟩ ::
                    ⟨.mark .opening, r₁, p₁⟩ :: (us ++ ⟨.mark .closing, r₂, p₂⟩ :: vs)) ++
                    step.rest := by
                  rw [hr, e, e']; simp
                refine ⟨_, _, _, key, .stage hname hus hvs, ?_, ?_⟩
                · rw [Nat.add_right_comm] at hn
                  exact Allows.max hn hm
                · rw [hv, hstop]; simp
            · have hlen : input.rest.length = rest.length + 2 := by simp [hr]
              obtain ⟨vs, m, more, e', hvs, hm, hv⟩ :=
                parseStages_sound ih (by dsimp only; omega) hd (by simp [Stage.span]) h
              have key : input.rest = (⟨.sign .bar, r₀, p₀⟩ :: ⟨.name name, r, p⟩ :: vs) ++
                  step.rest := hr.trans (congrArg (_ :: _ :: ·) e')
              refine ⟨_, _, _, key, .bareStage hname hvs, hm, ?_⟩
              rw [hv]; simp
      · cases h
  · cases h
    refine ⟨[], 0, [], rfl, .noStages, hd, ?_⟩
    rw [List.append_nil]
    exact ofStages_eq_piped hdone
termination_by input.rest.length
decreasing_by all_goals omega

lemma soundBelow (s : Setting) (size : Nat) : SoundBelow s size := by
  induction size with
  | zero => exact fun h => absurd h (Nat.not_lt_zero _)
  | succ size ih =>
    intro d ts step hsize hd h
    rw [parsePipeline] at h
    split at h
    · cases h
    · next input hin =>
      have hlt := input.shorter
      obtain ⟨us, n, e, hus, hn⟩ := parseTernary_sound ih (by omega) hd hin
      obtain ⟨vs, m, more, e', hvs, hm, hv⟩ := parseStages_sound ih (by omega) hd (by simp) h
      -- only groups and arguments start a pipeline again, and those on fewer tokens
      refine ⟨us ++ vs, max n m, e.trans (by rw [e', List.append_assoc]), ?_, hn.max hm⟩
      rw [hv]
      exact .pipeline hus hvs

/-- Whatever the parser reads as a pipeline is derived as one. -/
theorem parsePipeline_sound {s d ts step} (hd : s.Allows d) (h : parsePipeline s d ts = .ok step) :
    s.Reads d ts step.rest (.pipeline step.value) :=
  soundBelow s (ts.length + 1) (Nat.lt_succ_self _) hd h

end Expr

end Stencil
