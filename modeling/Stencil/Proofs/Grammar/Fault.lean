import Stencil.Proofs.Grammar.Call
import Stencil.Proofs.Token.Fault

/-!
# Where faults of the parser come from

The parser finds a fault at one of the tokens, or passes on the one that ends them. Main statement:
`Call.answer_met`. So the faults of a source are what the scanner and the parser may find in it, and
they lie inside it.
-/

namespace Stencil

/-- The faults that the parser finds at a token. -/
inductive Token.Raises (t : Token) : SyntaxFault → Prop where
  | unexpected (expected : Expected) : t.Raises (.unexpected expected t)
  | bareName (name : Text) : t.Raises (.bareName name t.span)
  | conditionalArity (stop : Nat) : t.Raises (.conditionalArity ⟨t.span.start, stop⟩)
  | hugeNumber : t.Raises (.hugeNumber t.span)

namespace Setting

/-- The fault that ends the tokens, that of the braces that are not closed, a depth that is not allowed,
or what is found at one of the tokens. -/
inductive Meets (s : Setting) (ts : List Token) : SyntaxFault → Prop where
  | last {fault} : s.last = .error fault → s.Meets ts fault
  | unclosed {o} : s.opening = some o → s.Meets ts (.unclosed o)
  | tooDeep {us} : us <:+ ts → s.Meets ts (.tooDeep (s.here us))
  | token {t fault} : t ∈ (Tokens.mk ts s.last).all → t.Raises fault → s.Meets ts fault

variable {s : Setting} {depth : Nat} {ts us : List Token} {fault : SyntaxFault}

lemma Meets.mono (h : s.Meets us fault) (hsuffix : us <:+ ts) : s.Meets ts fault := by
  cases h with
  | last hlast => exact .last hlast
  | unclosed ho => exact .unclosed ho
  | tooDeep hus => exact .tooDeep (hus.trans hsuffix)
  | token ht hraises =>
    obtain ht | ht := List.mem_append.1 ht
    · exact .token (List.mem_append_left _ (hsuffix.subset ht)) hraises
    · exact .token (List.mem_append_right _ ht) hraises

lemma mem_all_last {t : Token} (h : s.last = .ok t) : t ∈ (Tokens.mk ts s.last).all := by
  refine List.mem_append_right _ ?_
  rw [h]
  exact List.mem_singleton_self t

lemma meets_refuse (expected : Expected) (ts : List Token) : s.Meets ts (s.refuse expected ts) := by
  unfold Setting.refuse
  split
  · exact .token List.mem_cons_self (.unexpected expected)
  · split
    · next hlast => exact .last hlast
    · next t hlast =>
      split
      · next o ho =>
        split
        · exact .unclosed ho
        · exact .token (mem_all_last hlast) (.unexpected expected)
      · exact .token (mem_all_last hlast) (.unexpected expected)

lemma meets_blocked (h : s.blocked? us = some fault) : s.Meets ts fault := by
  unfold Setting.blocked? at h
  split at h
  · cases h
  · split at h
    · next hlast =>
      cases h
      exact .last hlast
    · cases h

lemma meets_tooDeep (h : s.tooDeep? depth ts = some fault) : s.Meets ts fault := by
  unfold Setting.tooDeep? at h
  split at h
  · split at h
    · cases h
      exact .tooDeep List.suffix_rfl
    · cases h
  · cases h

lemma meets_barred (h : s.barred? depth ts = some fault) : s.Meets ts fault := by
  rw [barred?, Option.orElse_eq_orElse, Option.orElse_eq_or, Option.or_eq_some_iff] at h
  obtain h | ⟨-, h⟩ := h
  · exact meets_blocked h
  · exact meets_tooDeep h

end Setting

/-- What a parse of the tokens `us` gives: what remains is an end of them, or the fault is met there. -/
inductive Met (s : Setting) (us : List Token) {α : Type} {ts : List Token} : Parse α ts → Prop where
  | read {step : Step α ts} : step.rest <:+ us → Met s us (.ok step)
  | failed {fault : SyntaxFault} : s.Meets us fault → Met s us (.error fault)

namespace Met

variable {α β : Type} {s : Setting} {us us' ts ts' : List Token}

/-- What fails where a part does, and is met where the part has a value, is met. -/
lemma seq {r : Parse α ts} {q : Parse β ts'} (h : Met s us' r) (hsuffix : us' <:+ us)
    (he : ∀ fault, r = .error fault → q = .error fault)
    (hv : ∀ step, r = .ok step → step.rest <:+ us → Met s us q) : Met s us q := by
  cases h with
  | read hrest => exact hv _ rfl (hrest.trans hsuffix)
  | failed h =>
    rw [he _ rfl]
    exact .failed (h.mono hsuffix)

lemma mono {r : Parse α ts} (h : Met s us' r) (hsuffix : us' <:+ us) : Met s us r := by
  cases h with
  | read hrest => exact .read (hrest.trans hsuffix)
  | failed h => exact .failed (h.mono hsuffix)

/-- What follows a check is met if the fault of the check is. -/
lemma guard {check : Option SyntaxFault} {r : Parse α ts}
    (hcheck : ∀ fault, check = some fault → s.Meets us fault) (hr : Met s us r) :
    Met s us (match check with | some fault => .error fault | none => r) := by
  cases check with
  | none => exact hr
  | some fault => exact .failed (hcheck fault rfl)

end Met

namespace Call

variable {s : Setting} {depth level : Nat} {ts : List Token}

/-- The answers to all calls before this one are met in their tokens. -/
def MetBelow (s : Setting) {α : Type} {ts : List Token} (c : Call α ts) : Prop :=
  ∀ {β : Type} {us : List Token} (c' : Call β us), c'.Before c → Met s c'.tokens (answer s c')

namespace MetBelow

variable {α : Type} {c : Call α ts} {us : List Token}

lemma operators (ih : MetBelow s c) {left : Step Expr us}
    (h : left.rest.length < c.tokens.length) :
    Met s left.rest (Expr.parseOperators s depth level left) :=
  ih (.operators depth level left) (.inl h)

lemma stages (ih : MetBelow s c) {input : Step Expr us} {done : List Stage}
    (h : input.rest.length < c.tokens.length) :
    Met s input.rest (Expr.parseStages s depth input done) :=
  ih (.stages depth input done) (.inl h)

lemma moreArguments (ih : MetBelow s c) {done : Step (List Expr) us}
    (h : done.rest.length < c.tokens.length) :
    Met s done.rest (Expr.parseMoreArguments s depth done) :=
  ih (.moreArguments depth done) (.inl h)

end MetBelow

lemma pipeline_met (ih : MetBelow s (.pipeline depth ts)) :
    Met s ts (Expr.parsePipeline s depth ts) := by
  rw [Expr.parsePipeline]
  have hinput : Met s ts (Expr.parseTernary s depth ts) :=
    ih (.ternary depth ts) (.inr ⟨rfl, Nat.lt_succ_self _⟩)
  apply hinput.seq List.suffix_rfl (fun _ h => by simp only [h])
  intro input h hsuffix
  simp only [h]
  exact (ih.stages input.shorter).mono hsuffix

lemma ternary_met (ih : MetBelow s (.ternary depth ts)) :
    Met s ts (Expr.parseTernary s depth ts) := by
  rw [Expr.parseTernary]
  have hcondition : Met s ts (Expr.parseOperand s depth 0 ts) :=
    ih (.operand depth 0 ts) (.inr ⟨rfl, Nat.lt_succ_self _⟩)
  apply hcondition.seq List.suffix_rfl (fun _ h => by simp only [h])
  intro condition h hsuffix
  simp only [h]
  have hlt := condition.shorter
  split
  · next rest hr =>
    rw [hr] at hsuffix hlt
    replace hsuffix := (List.suffix_cons _ _).trans hsuffix
    apply Met.guard (fun _ h => (Setting.meets_barred h).mono hsuffix)
    have hconsequent : Met s rest (Expr.parseTernary s (depth + 1) rest) :=
      ih (.ternary depth.succ rest) (.inl (Nat.lt_of_succ_lt hlt))
    apply hconsequent.seq hsuffix (fun _ h => by simp only [h])
    intro consequent h hsuffix'
    simp only [h]
    have hlt' := consequent.shorter
    split
    · next rest' hr' =>
      rw [hr'] at hsuffix' hlt'
      replace hsuffix' := (List.suffix_cons _ _).trans hsuffix'
      apply Met.guard (fun _ h => (Setting.meets_barred h).mono hsuffix')
      have halternate : Met s rest' (Expr.parseTernary s (depth + 1) rest') :=
        ih (.ternary depth.succ rest') (.inl (by simp only [tokens, List.length_cons] at *; omega))
      apply halternate.seq hsuffix' (fun _ h => by simp only [h])
      intro alternate h hsuffix''
      simp only [h]
      exact .read hsuffix''
    · exact .failed ((Setting.meets_refuse _ _).mono hsuffix')
  · exact .read hsuffix

lemma operand_met (ih : MetBelow s (.operand depth level ts)) :
    Met s ts (Expr.parseOperand s depth level ts) := by
  rw [Expr.parseOperand]
  split
  · next hlevel =>
    have hleft : Met s ts (Expr.parseOperand s depth (level + 1) ts) :=
      ih (.operand depth level.succ ts) (.inr ⟨rfl, by simp only [tightness]; omega⟩)
    apply hleft.seq List.suffix_rfl (fun _ h => by simp only [h])
    intro left h hsuffix
    simp only [h]
    exact (ih.operators left.shorter).mono hsuffix
  · exact ih (.unary depth ts) (.inr ⟨rfl, by simp only [tightness]; omega⟩)

lemma operators_met {left : Step Expr ts}
    (ih : MetBelow s (.operators depth level left)) :
    Met s left.rest (Expr.parseOperators s depth level left) := by
  rw [Expr.parseOperators]
  split
  · exact .read List.suffix_rfl
  · next t rest hr =>
    split
    · exact .read List.suffix_rfl
    · split
      · have hsuffix : rest <:+ left.rest := hr ▸ List.suffix_cons t rest
        apply Met.guard (fun _ => Setting.meets_blocked)
        have hright : Met s rest (Expr.parseOperand s depth (level + 1) rest) :=
          ih (.operand depth level.succ rest)
            (.inl (by simp only [tokens, hr, List.length_cons]; omega))
        apply hright.seq hsuffix (fun _ h => by simp only [h])
        intro right h hsuffix'
        simp only [h]
        have hlt := right.shorter
        refine Met.mono (ih.operators ?_) hsuffix'
        simp only [tokens, hr, List.length_cons]
        omega
      · exact .read List.suffix_rfl

lemma unary_met (ih : MetBelow s (.unary depth ts)) :
    Met s ts (Expr.parseUnary s depth ts) := by
  cases ts with
  | nil =>
    rw [Expr.parseUnary]
    exact .failed (Setting.meets_refuse _ _)
  | cons t rest =>
    have hsuffix : rest <:+ t :: rest := List.suffix_cons t rest
    rw [Expr.parseUnary]
    split
    · apply Met.guard (fun _ h => (Setting.meets_barred h).mono hsuffix)
      have hinner : Met s rest (Expr.parseUnary s (depth + 1) rest) :=
        ih (.unary depth.succ rest) (.inl (Nat.lt_succ_self _))
      apply hinner.seq hsuffix (fun _ h => by simp only [h])
      intro inner h hsuffix'
      simp only [h]
      exact .read hsuffix'
    · exact ih (.primary depth t rest) (.inr ⟨rfl, Nat.lt_succ_self _⟩)

lemma raises_ofCall {t : Token} {name args stop fault}
    (h : Expr.ofCall t name args stop = .error fault) : t.Raises fault := by
  unfold Expr.ofCall at h
  split at h
  · split at h
    · cases h
    · cases h
    · cases h
      exact .conditionalArity stop
  · cases h

lemma primary_met {t : Token} {rest : List Token}
    (ih : MetBelow s (.primary depth t rest)) :
    Met s (t :: rest) (Expr.parsePrimary s depth t rest) := by
  have ht : t ∈ (Tokens.mk (t :: rest) s.last).all := List.mem_cons_self
  have hsuffix : rest <:+ t :: rest := List.suffix_cons t rest
  rw [Expr.parsePrimary]
  split
  · apply Met.guard (fun _ => Setting.meets_blocked)
    split
    · exact .read hsuffix
    · exact .failed (.token ht .hugeNumber)
  · apply Met.guard (fun _ => Setting.meets_blocked)
    exact .read hsuffix
  · apply Met.guard (fun _ => Setting.meets_blocked)
    exact .read hsuffix
  · apply Met.guard (fun _ => Setting.meets_blocked)
    split
    · exact .read hsuffix
    · split
      · next r p rest =>
        have hargs : Met s (⟨.mark .opening, r, p⟩ :: rest)
            (Expr.parseArguments s (depth + 1) ⟨.mark .opening, r, p⟩ rest) :=
          ih (.arguments depth.succ ⟨.mark .opening, r, p⟩ rest) (.inl (Nat.lt_succ_self _))
        apply hargs.seq hsuffix (fun _ h => by simp only [h])
        intro args h hsuffix'
        simp only [h]
        split
        · next hcall => exact .failed (.token ht (raises_ofCall hcall))
        · exact .read hsuffix'
      · exact .failed (.token ht (.bareName _))
  · apply Met.guard (fun _ h => (Setting.meets_barred h).mono hsuffix)
    have hinner : Met s rest (Expr.parsePipeline s (depth + 1) rest) :=
      ih (.pipeline depth.succ rest) (.inl (Nat.lt_succ_self _))
    apply hinner.seq hsuffix (fun _ h => by simp only [h])
    intro inner h hsuffix'
    simp only [h]
    split
    · next hr =>
      rw [hr] at hsuffix'
      apply Met.guard (fun _ => Setting.meets_blocked)
      exact .read ((List.suffix_cons _ _).trans hsuffix')
    · exact .failed ((Setting.meets_refuse _ _).mono hsuffix')
  · exact .failed (Setting.meets_refuse _ _)

lemma arguments_met {opening : Token} {rest : List Token}
    (ih : MetBelow s (.arguments depth opening rest)) :
    Met s (opening :: rest) (Expr.parseArguments s depth opening rest) := by
  have hsuffix : rest <:+ opening :: rest := List.suffix_cons opening rest
  rw [Expr.parseArguments.eq_def]
  apply Met.guard
  · intro fault h
    rw [Option.orElse_eq_orElse, Option.orElse_eq_or, Option.or_eq_some_iff] at h
    obtain h | ⟨-, h⟩ := h
    · exact Setting.meets_tooDeep h
    · exact Setting.meets_blocked h
  · split
    · apply Met.guard (fun _ => Setting.meets_blocked)
      exact .read ((List.suffix_cons _ _).trans hsuffix)
    · exact (ih.moreArguments (Nat.lt_succ_self _)).mono hsuffix

lemma moreArguments_met {done : Step (List Expr) ts}
    (ih : MetBelow s (.moreArguments depth done)) :
    Met s done.rest (Expr.parseMoreArguments s depth done) := by
  rw [Expr.parseMoreArguments]
  have harg : Met s done.rest (Expr.parsePipeline s depth done.rest) :=
    ih (.pipeline depth done.rest) (.inr ⟨rfl, Nat.lt_succ_self _⟩)
  apply harg.seq List.suffix_rfl (fun _ h => by simp only [h])
  intro arg h hsuffix
  simp only [h]
  have hlt := arg.shorter
  split
  · next rest hr =>
    rw [hr] at hsuffix hlt
    replace hsuffix := (List.suffix_cons _ _).trans hsuffix
    apply Met.guard (fun _ => Setting.meets_blocked)
    exact Met.mono (ih.moreArguments (Nat.lt_of_succ_lt hlt)) hsuffix
  · next hr =>
    rw [hr] at hsuffix
    apply Met.guard (fun _ => Setting.meets_blocked)
    exact .read ((List.suffix_cons _ _).trans hsuffix)
  · exact .failed ((Setting.meets_refuse _ _).mono hsuffix)

lemma stages_met {input : Step Expr ts} {done : List Stage}
    (ih : MetBelow s (.stages depth input done)) :
    Met s input.rest (Expr.parseStages s depth input done) := by
  rw [Expr.parseStages]
  split
  · next r p rest hr =>
    have hsuffix : rest <:+ input.rest := hr ▸ List.suffix_cons _ rest
    apply Met.guard (fun _ => Setting.meets_blocked)
    split
    · next name r' p' rest' hr' =>
      have hsuffix' : rest' <:+ input.rest := (List.suffix_cons _ _).trans hsuffix
      split
      · exact .failed ((Setting.meets_refuse _ _).mono hsuffix)
      · apply Met.guard (fun _ => Setting.meets_blocked)
        split
        · next r'' p'' rest'' hr'' =>
          have hlen : input.rest.length = rest''.length + 3 := by simp [hr'']
          have hargs : Met s (⟨.mark .opening, r'', p''⟩ :: rest'')
              (Expr.parseArguments s (depth + 1) ⟨.mark .opening, r'', p''⟩ rest'') :=
            ih (.arguments depth.succ ⟨.mark .opening, r'', p''⟩ rest'')
              (.inl (by simp only [tokens, List.length_cons]; omega))
          apply hargs.seq hsuffix' (fun _ h => by simp only [h])
          intro args h hsuffix''
          simp only [h]
          have hlt : args.rest.length < rest''.length + 1 := args.shorter
          refine Met.mono (ih.stages ?_) hsuffix''
          simp only [tokens]
          omega
        · have hlen : input.rest.length = rest'.length + 2 := by simp [hr']
          refine Met.mono (ih.stages ?_) hsuffix'
          simp only [tokens]
          omega
    · exact .failed ((Setting.meets_refuse _ _).mono hsuffix)
  · exact .read List.suffix_rfl

/-- Every fault of the parser is met in the tokens that it reads. -/
theorem answer_met {α : Type} (c : Call α ts) : Met s c.tokens (answer s c) := by
  induction c using induction with
  | step c ih =>
    cases c with
    | pipeline => exact pipeline_met ih
    | stages => exact stages_met ih
    | ternary => exact ternary_met ih
    | operand => exact operand_met ih
    | operators => exact operators_met ih
    | unary => exact unary_met ih
    | primary => exact primary_met ih
    | arguments => exact arguments_met ih
    | moreArguments => exact moreArguments_met ih

end Call

/-- The faults that reading a source ends with: a lexeme that cannot be read, what the parser finds at a
token, and at offsets of the source braces that are not closed, nothing to read, or too great a depth. -/
inductive SyntaxFault.RaisedIn (source : Text) : SyntaxFault → Prop where
  | misread {fault} : fault.MisreadIn source → RaisedIn source fault
  | token {t : Token} {fault} : t.ReadIn source → t.Raises fault → RaisedIn source fault
  | unclosed {o} : o ≤ source.length → RaisedIn source (.unclosed o)
  | empty {span} : span.start ≤ source.length → RaisedIn source (.empty span)
  | tooDeep {o} : o ≤ source.length → RaisedIn source (.tooDeep o)

lemma Token.Raises.index_eq {t : Token} {fault : SyntaxFault} (h : t.Raises fault) :
    fault.index = t.span.start := by
  cases h <;> rfl

variable {source : Text} {fault : SyntaxFault}

/-- The faults of a source lie inside it. -/
lemma SyntaxFault.RaisedIn.liesWithin (h : fault.RaisedIn source) :
    fault.LiesWithin source.length := by
  cases h with
  | misread h => exact h.liesWithin
  | token ht h => exact ⟨_, ht.start_le, h.index_eq⟩
  | unclosed ho => exact ⟨_, ho, rfl⟩
  | empty hstart => exact ⟨_, hstart, rfl⟩
  | tooDeep ho => exact ⟨_, ho, rfl⟩

namespace Setting

variable {s : Setting} {ts us : List Token}

lemma here_le (hts : (Tokens.mk ts s.last).ReadIn source) (hsuffix : us <:+ ts) :
    s.here us ≤ source.length := by
  unfold Setting.here
  split
  · next t rest =>
    exact (hts.all t (List.mem_append_left _ (hsuffix.subset List.mem_cons_self))).start_le
  · split
    · next t hlast => exact (hts.all t (mem_all_last hlast)).start_le
    · exact Nat.zero_le _

/-- What the parser meets in the tokens of a source is a fault of the source. -/
lemma Meets.raisedIn (h : s.Meets ts fault) (hts : (Tokens.mk ts s.last).ReadIn source)
    (hopening : ∀ o, s.opening = some o → o ≤ source.length) : fault.RaisedIn source := by
  cases h with
  | last hlast => exact .misread (hts.fault _ hlast)
  | unclosed ho => exact .unclosed (hopening _ ho)
  | tooDeep hsuffix => exact .tooDeep (here_le hts hsuffix)
  | token ht hraises => exact .token (hts.all _ ht) hraises

end Setting

end Stencil
