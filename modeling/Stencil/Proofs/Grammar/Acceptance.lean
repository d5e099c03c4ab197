import Stencil.Proofs.Grammar.Completeness
import Stencil.Proofs.Number.Numeral

/-!
# What is accepted

A text is parsed exactly if it splits into tokens that the grammar derives as a pipeline, no deeper
than the limit allows. Main statements: `Expr.parse_iff` and `Expr.parseSegment_iff`.
-/

namespace Stencil

/-- A number lexeme has a finite value. -/
def Lexeme.Finite (l : Lexeme) : Prop :=
  ∀ text, l = .number text → ∃ n, Numeral.read? text = some n ∧ n.toNumber.isFinite

lemma numberLiteral?_finite {text v} (h : numberLiteral? text = some v) :
    ∃ n, Numeral.read? text = some n ∧ n.toNumber.isFinite := by
  unfold numberLiteral? at h
  split at h
  · next hdigits hwhole =>
    rw [Whole.ofInt?] at hwhole
    split at hwhole
    · next hle => exact ⟨_, Numeral.read?_digits hdigits, Numeral.isFinite_toNumber hle⟩
    · cases hwhole
  · split at h
    · next n hn =>
      split at h
      · next hf => exact ⟨n, hn, hf⟩
      · cases h
    · cases h

lemma Lexeme.finite_of_literal? {l : Lexeme} {v} (h : l.literal? = some v) : l.Finite := by
  rintro text rfl
  exact numberLiteral?_finite h

namespace Derives

/-- Number lexemes stand in derived tokens only with finite values. -/
lemma finite {n ts p} (h : Derives n ts p) : ∀ t ∈ ts, t.lexeme.Finite := by
  induction h with
  | literal hv => simpa using Lexeme.finite_of_literal? hv
  | access => simp [Lexeme.Finite]
  | group _ ih => simpa [Lexeme.Finite, or_imp, forall_and] using ih
  | call _ _ ih => simpa [Lexeme.Finite, or_imp, forall_and] using ih
  | conditional _ ih => simpa [Lexeme.Finite, or_imp, forall_and] using ih
  | noArguments => exact nofun
  | lastArgument _ ih => exact ih
  | argument _ _ ih ih' => simpa [Lexeme.Finite, or_imp, forall_and] using ⟨ih, ih'⟩
  | atom _ ih => exact ih
  | unary hop _ ih =>
    refine List.forall_mem_cons.2 ⟨?_, ih⟩
    intro text ht
    rw [ht] at hop
    cases hop
  | factor _ ih => exact ih
  | tighter _ _ ih => exact ih
  | binary hop _ _ ih ih' =>
    refine List.forall_mem_append.2 ⟨ih, List.forall_mem_cons.2 ⟨?_, ih'⟩⟩
    intro text ht
    rw [ht] at hop
    cases hop
  | choice _ ih => exact ih
  | ternary _ _ _ ih ih' ih'' =>
    simpa [Lexeme.Finite, or_imp, forall_and] using ⟨ih, ih', ih''⟩
  | noStages => exact nofun
  | bareStage _ _ ih => simpa [Lexeme.Finite, or_imp, forall_and] using ih
  | stage _ _ _ ih ih' => simpa [Lexeme.Finite, or_imp, forall_and] using ⟨ih, ih'⟩
  | pipeline _ _ ih ih' => exact List.forall_mem_append.2 ⟨ih, ih'⟩

/-- A pipeline has tokens. -/
lemma ne_nil {n ts e} (h : Derives n ts (.pipeline e)) : ts ≠ [] := by
  obtain ⟨t, us, rfl, _⟩ := h.head trivial
  exact List.cons_ne_nil _ _

end Derives

/-- The last token of a list is the final one. -/
lemma tokenize_iff {source ts last} :
    tokenize source = .ok (ts ++ [last]) ↔ (Cursor.start source 0).tokens = ⟨ts, .ok last⟩ := by
  unfold tokenize
  generalize (Cursor.start source 0).tokens = all
  obtain ⟨us, final⟩ := all
  cases final with
  | error => exact ⟨nofun, nofun⟩
  | ok t =>
    constructor
    · intro h
      obtain ⟨hts, ht⟩ := List.append_inj' (Except.ok.inj h) rfl
      rw [← List.head_eq_of_cons_eq ht, ← hts]
    · intro h
      cases h
      rfl

namespace Expr

open Setting

/-- All the tokens make up the expression if they derive it and the wanted lexeme ends them. -/
lemma parseWhole_iff {s final expected ts e} :
    parseWhole s final expected ts = .ok e ↔
      ∃ last n, s.last = .ok last ∧ last.lexeme = final ∧ Derives n ts (.pipeline e) ∧
        s.Allows (1 + n) := by
  unfold parseWhole
  constructor
  · intro h
    split at h
    · cases h
    · next hd =>
      split at h
      · cases h
      · next step hstep =>
        obtain ⟨us, n, hts, hus, hn⟩ := parsePipeline_sound (tooDeep?_eq_none.1 hd) hstep
        split at h
        · next last hr hlast =>
          split at h
          · next hfinal =>
            cases h
            rw [hr, List.append_nil] at hts
            subst hts
            exact ⟨last, n, hlast, hfinal, hus, hn⟩
          · cases h
        · cases h
  · rintro ⟨last, n, hlast, hfinal, hts, hn⟩
    obtain ⟨step, hstep, hv, hr⟩ :=
      accepted hts ⟨last, hlast⟩ hn ts [] (List.append_nil _).symm ends_nil
    rw [tooDeep?_eq_none.2 hn.here]
    simp only [hstep, hr, hlast, hfinal, if_true, hv]

/-- A text is an expression if its tokens derive it, no deeper than the limit allows. -/
theorem parse_iff {source limit e} :
    parse source limit = .ok e ↔
      ∃ ts last n, (Cursor.start source 0).tokens = ⟨ts, .ok last⟩ ∧ last.lexeme = .eof ∧
        Derives n ts (.pipeline e) ∧ Within (effective limit) (1 + n) := by
  unfold parse
  obtain ⟨ts, last⟩ := (Cursor.start source 0).tokens
  constructor
  · intro h
    have hw : parseWhole ⟨last, none, effective limit⟩ .eof .ending ts = .ok e := by
      dsimp only at h
      split at h
      · cases h
      · split at h
        · cases h
        · exact h
      · exact h
    obtain ⟨t, n, rfl, ht, hts, hn⟩ := parseWhole_iff.1 hw
    exact ⟨ts, t, n, rfl, ht, hts, hn⟩
  · rintro ⟨_, t, n, ⟨⟩, ht, hts, hn⟩
    dsimp only
    split
    · next heq => cases heq
    · exact absurd rfl hts.ne_nil
    · exact parseWhole_iff.2 ⟨t, n, rfl, ht, hts, hn⟩

/-- The inside of braces is an expression if its tokens derive it, no deeper than the limit allows,
and closing braces end them. -/
theorem parseSegment_iff {opening inside limit e close} :
    parseSegment opening inside limit = .ok (e, close) ↔
      ∃ ts n, inside.tokens = ⟨ts, .ok close⟩ ∧ close.lexeme = .close ∧
        Derives n ts (.pipeline e) ∧ Within (effective limit) (1 + n) := by
  unfold parseSegment
  obtain ⟨ts, last⟩ := inside.tokens
  constructor
  · intro h
    dsimp only at h
    split at h
    · next fault =>
      split at h
      · cases h
      · cases hw : parseWhole ⟨.error fault, some opening, effective limit⟩ .close .closing ts with
        | error => rw [hw] at h; cases h
        | ok => rw [hw] at h; cases h
    · next t =>
      split at h
      · cases h
      · cases hw : parseWhole ⟨.ok t, some opening, effective limit⟩ .close .closing ts with
        | error => rw [hw] at h; cases h
        | ok e' =>
          rw [hw] at h
          cases h
          obtain ⟨_, n, ⟨⟩, ht, hts, hn⟩ := parseWhole_iff.1 hw
          exact ⟨ts, n, rfl, ht, hts, hn⟩
  · rintro ⟨_, n, ⟨⟩, ht, hts, hn⟩
    have hw : parseWhole ⟨.ok close, some opening, effective limit⟩ .close .closing ts = .ok e :=
      parseWhole_iff.2 ⟨close, n, rfl, ht, hts, hn⟩
    have hne : ts.isEmpty = false := List.isEmpty_eq_false_iff.2 hts.ne_nil
    simp only [hne, Bool.false_and, hw]
    rfl

end Expr

/-- The grammar is unambiguous: tokens derive one tree at most. -/
theorem Derives.unique {n m ts e e'} (h : Derives n ts (.pipeline e))
    (h' : Derives m ts (.pipeline e')) : e = e' := by
  let s : Setting := ⟨.ok ⟨.eof, [], ⟨0, 0⟩⟩, none, none⟩
  have hs : s.Ready := ⟨_, rfl⟩
  have hd (d : Nat) : s.Allows d := within_none
  have hts : ts = ts ++ [] := (List.append_nil ts).symm
  obtain ⟨step, hstep, hv, _⟩ := Expr.accepted h hs (hd (1 + n)) ts [] hts ends_nil
  obtain ⟨step', hstep', hv', _⟩ := Expr.accepted h' hs (hd (1 + m)) ts [] hts ends_nil
  rw [hstep] at hstep'
  cases hstep'
  exact hv.symm.trans hv'

end Stencil
