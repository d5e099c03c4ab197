import Stencil.Proofs.Text
import Stencil.Proofs.Token.Run

/-!
# Progress of cursors

`Cursor.next_call` says what one call of the scanner may do: it ends at the end of the source, it
passes over white space and a token, or it stops at a fault inside the source.
Main statement: `Cursor.calls_tile`. The tokens of any number of calls tile the source from the
offset on; every call ends, fails or goes forward; and the tokens of a whole source are found after
finitely many calls, with one final token in the last place.
-/

namespace Stencil

namespace Reading

variable {t rest : Text} {m : Misreading}

/-- Every reading passes a part of its text. -/
lemma more_le {u r} (h : first u rest = .ok r) : r.more ≤ rest.length := by
  obtain ⟨-, rfl, a, rfl⟩ | ⟨-, w, a, rfl, hw, -⟩ := first_shape h
  · exact Nat.le_add_left 1 _
  · rw [hw, List.length_append]
    exact Nat.le_add_right _ _

lemma mantissaWidth_le (t : Text) : mantissaWidth t ≤ t.length := by
  obtain ⟨w, a, ht, hw, -⟩ := mantissa_shape t
  rw [← hw, ht, List.length_append]
  exact Nat.le_add_right _ _

lemma number_passed (h : number t = .error m) : m.passed ≤ t.length := by
  unfold number at h
  dsimp only at h
  split at h
  · cases h
  · split at h
    · split at h
      · cases h
        exact mantissaWidth_le t
      · cases h
    · cases h

lemma string_passed {quote} (h : string quote rest = .error m) : m.passed = rest.length + 1 := by
  unfold string at h
  split at h
  · cases h
  · cases h
    rfl

/-- A bare point stands at the end of the segments or before. -/
lemma bareDot?_le {offset dot : Nat} {segments : List Text}
    (h : bareDot? offset segments = some dot) :
    dot ≤ offset + (Text.join "." segments).length := by
  induction segments generalizing offset with
  | nil => cases h
  | cons segment rest ih =>
    rw [bareDot?] at h
    split at h
    · cases h
      exact Nat.le_add_right _ _
    · cases rest with
      | nil => cases h
      | cons segment' rest =>
        have hpoint : ("." : Text).length = 1 := rfl
        have := ih h
        rw [Text.join_cons_cons, List.length_append, List.length_append, hpoint]
        omega

lemma path_passed {source width} (h : path source width rest = .error m) :
    m.passed ≤ width + rest.length := by
  obtain ⟨a, hrest, -⟩ := pathRun_shape rest
  have hle : (pathRun rest).length ≤ rest.length := by
    conv_rhs => rw [hrest, List.length_append]
    exact Nat.le_add_right _ _
  unfold path at h
  generalize pathRun rest = run at h hle
  dsimp only at h
  split at h
  · next dot hdot =>
    cases h
    cases run with
    | nil => cases hdot
    | cons u run =>
      have hdot := bareDot?_le hdot
      have hjoin : Text.join "." (Text.split '.' run) = run := Text.join_split '.' run
      rw [List.drop_one, List.tail_cons, hjoin] at hdot
      rw [List.length_cons] at hle
      dsimp only
      omega
  · cases h

/-- A node is misread before its parentheses, in its identifier or in its path. -/
lemma node_passed (h : node rest = .error m) : m.passed ≤ 5 + rest.length := by
  unfold node at h
  dsimp only at h
  split at h
  · cases h
    exact Nat.le_refl _
  · split at h
    · split at h
      · cases h
        exact Nat.le_refl _
      · next quote rest =>
        simp only [List.length_cons]
        split at h
        · have hid : (rest.takeWhile (· != quote)).length ≤ rest.length :=
            (List.takeWhile_prefix _).length_le
          split at h
          · cases h
            dsimp only
            omega
          · next hdrop =>
            have hlength := congrArg List.length hdrop
            rw [List.length_drop, List.length_cons] at hlength
            split at h
            · cases h
              dsimp only
              omega
            · rw [List.length_cons] at hlength
              split at h
              · have := path_passed h
                omega
              · cases h
                dsimp only
                omega
        · cases h
          dsimp only
          omega
    · cases h
      exact Nat.le_add_right _ _

lemma reference_passed (h : reference rest = .error m) : m.passed ≤ rest.length + 1 := by
  have hname : (rest.takeWhile CodeUnit.isNamePart).length ≤ rest.length :=
    (List.takeWhile_prefix _).length_le
  have hwhole {source : DataSource} (h : path (fun p => (source, p))
      ((rest.takeWhile CodeUnit.isNamePart).length + 1)
      (rest.drop (rest.takeWhile CodeUnit.isNamePart).length) = .error m) :
      m.passed ≤ rest.length + 1 := by
    have := path_passed h
    rw [List.length_drop] at this
    omega
  unfold reference at h
  dsimp only at h
  split at h
  · exact hwhole h
  · split at h
    · next hnode =>
      have := node_passed h
      rw [List.length_drop, hnode] at this
      rw [hnode] at hname
      have hfour : ("node" : Text).length = 4 := rfl
      omega
    · split at h
      · split at h
        · cases h
          exact Nat.succ_le_succ hname
        · exact hwhole h
      · split at h
        · exact hwhole h
        · split at h
          · exact hwhole h
          · split at h
            · exact hwhole h
            · cases h
              exact Nat.succ_le_succ hname

lemma symbol_passed {u} (h : symbol u rest = .error m) : m.passed = 0 := by
  unfold symbol at h
  split at h
  · cases h
  · split at h
    · cases h
    · split at h
      · cases h
      · cases h
        rfl

/-- A misreading passes no more than its text. -/
lemma first_passed {u} (h : first u rest = .error m) : m.passed ≤ rest.length + 1 := by
  unfold first at h
  dsimp only at h
  split at h
  · cases h
  · split at h
    · exact number_passed h
    · split at h
      · exact Nat.le_of_eq (string_passed h)
      · split at h
        · exact reference_passed h
        · split at h
          · cases h
          · rw [symbol_passed h]
            exact Nat.zero_le _

end Reading

namespace Token

/-- What the token stands for as a text: a string stands for its value, the end of the source for
nothing, and every other token for itself. -/
def value (t : Token) : Text :=
  match t.lexeme with
  | .eof => []
  | .close => "\x7d\x7d"
  | .name text => text
  | .number text => text
  | .string value => value
  | .reference _ _ => t.raw
  | .mark m => m.text
  | .sign s => s.text

end Token

namespace Reading

lemma number_value {t : Text} {r} (h : number t = .ok r) (hpos : 0 < mantissaWidth t) :
    r.lexeme = .number (t.take (r.more + 1)) := by
  obtain ⟨k, -, rfl⟩ := number_iff.1 h
  have hwidth : mantissaWidth t + k - 1 + 1 = mantissaWidth t + k := by omega
  rw [hwidth]

/-- Every lexeme but a string stands for the text that it is read from. -/
lemma first_value {u rest r span} (h : first u rest = .ok r) (hr : ∀ value, r.lexeme ≠ .string value) :
    (Token.mk r.lexeme (u :: rest.take r.more) span).value = u :: rest.take r.more := by
  cases first_iff.1 h with
  | close => rfl
  | digit hu hnum =>
    rw [Token.value, number_value hnum (mantissaWidth_pos (.inl hu))]
    rfl
  | point _ hnum =>
    rw [Token.value, number_value hnum (mantissaWidth_pos (.inr rfl))]
    rfl
  | quote _ hstring =>
    obtain ⟨w, a, value, -, -, rfl⟩ := string_iff.1 hstring
    exact absurd rfl (hr value)
  | dollar href =>
    obtain ⟨source, path, hlexeme⟩ := reference_lexeme href
    rw [Token.value, hlexeme]
  | name =>
    exact congrArg (u :: ·) (List.prefix_iff_eq_take.1 (List.takeWhile_prefix _))
  | symbol _ hsymbol =>
    obtain ⟨s, -, htext, rfl⟩ | ⟨s, -, htext, rfl⟩ | ⟨m, -, htext, rfl⟩ := symbol_cases hsymbol <;>
      exact htext

end Reading

/-- Where a token stands in a source that is read from the offset `o`. -/
structure Token.Stands (source : Text) (o : Nat) (t : Token) : Prop where
  from_offset : o ≤ t.span.start
  not_empty : t.span.start < t.span.stop
  inside : t.span.stop ≤ source.length
  gap : ∀ u ∈ source.slice o t.span.start, u.isSpace
  raw_eq : t.raw = source.slice t.span.start t.span.stop
  value_eq : (∀ value, t.lexeme ≠ .string value) → t.value = t.raw
  not_eof : t.lexeme ≠ .eof

namespace Cursor

/-- What a call at the offset `o` of a source may answer, and the offset after it. -/
inductive Call (source : Text) (o : Nat) : Except SyntaxFault Token → Nat → Prop where
  /-- Only white space is left. -/
  | ending : (∀ u ∈ source.drop o, u.isSpace) →
    Call source o (.ok (Cursor.ending source.length)) (max o source.length)
  /-- A token comes next, after some white space. -/
  | token {t : Token} : t.Stands source o → Call source o (.ok t) t.span.stop
  /-- The next lexeme cannot be read. -/
  | fault {fault o'} : o ≤ o' → o' ≤ max o source.length → Call source o (.error fault) o'

/-- The tokens that `n` calls give up to the first fault, each with the offset after its call. -/
def run : Nat → Cursor → List (Token × Nat)
  | 0, _ => []
  | n + 1, c =>
    match c.next with
    | (.ok t, c') => (t, c'.offset) :: run n c'
    | (.error _, _) => []

/-- The cursor after `n` calls, whatever they answered. -/
def after : Nat → Cursor → Cursor
  | 0, c => c
  | n + 1, c => after n c.next.2

/-- Only white space stands between an offset and the first token, and between each token and the
next one. -/
def Spaced (source : Text) : Nat → List Token → Prop
  | _, [] => True
  | o, t :: ts =>
    (min o source.length ≤ t.span.start ∧ ∀ u ∈ source.slice o t.span.start, u.isSpace) ∧
      Spaced source t.span.stop ts

variable {source : Text} {o : Nat}

lemma advance_start (n : Nat) : (start source o).advance n = start source (o + n) := by
  rw [start, advance, List.drop_drop]
  rfl

lemma skip_start : (start source o).skip =
    start source (o + ((source.drop o).takeWhile CodeUnit.isSpace).length) :=
  advance_start _

lemma read_nil (h : source.drop o = []) :
    (start source o).read = (.ok (ending source.length), start source o) := by
  rw [start, h]
  rfl

lemma read_ok {u rest r} (hrest : source.drop o = u :: rest) (h : Reading.first u rest = .ok r) :
    (start source o).read = (.ok ⟨r.lexeme, u :: rest.take r.more, ⟨o, o + (r.more + 1)⟩⟩,
      start source (o + (r.more + 1))) := by
  rw [← advance_start, start, hrest, read]
  simp only [h]

lemma read_error {u rest m} (hrest : source.drop o = u :: rest)
    (h : Reading.first u rest = .error m) :
    (start source o).read =
      (.error (.lexical m.fault (m.span.shift o)), start source (o + m.passed)) := by
  rw [← advance_start, start, hrest, read]
  simp only [h]

/-- A lexeme that is read after a gap stands in the source. -/
lemma stands_of_first {gap : Text} {u rest r} (hsource : source.drop o = gap ++ u :: rest)
    (hgap : ∀ v ∈ gap, v.isSpace) (h : Reading.first u rest = .ok r) :
    (Token.mk r.lexeme (u :: rest.take r.more)
      ⟨o + gap.length, o + gap.length + (r.more + 1)⟩).Stands source o where
  from_offset := Nat.le_add_right _ _
  not_empty := Nat.lt_add_of_pos_right (Nat.succ_pos _)
  inside := by
    have hlength := congrArg List.length hsource
    rw [List.length_drop, List.length_append, List.length_cons] at hlength
    have := Reading.more_le h
    dsimp only
    omega
  gap := by
    rw [Text.slice, hsource, Nat.add_sub_cancel_left, List.take_left]
    exact hgap
  raw_eq := by
    rw [Text.slice, ← List.drop_drop, hsource, List.drop_left, Nat.add_sub_cancel_left,
      List.take_succ_cons]
  value_eq := Reading.first_value h
  not_eof := by
    intro heof
    obtain ⟨-, rfl, -⟩ | ⟨hfinal, -⟩ := Reading.first_shape h
    · cases heof
    · dsimp only at heof
      rw [heof] at hfinal
      cases hfinal

/-- Each call does one of the three things that a call may do. -/
theorem next_call (source : Text) (o : Nat) :
    ∃ r o', (start source o).next = (r, start source o') ∧ Call source o r o' := by
  obtain ⟨after, hrest, hdrop, -⟩ := Reading.takeWhile_split CodeUnit.isSpace (source.drop o)
  have hgap : ∀ u ∈ (source.drop o).takeWhile CodeUnit.isSpace, u.isSpace :=
    fun u hu => List.mem_takeWhile_imp hu
  rw [next, skip_start]
  generalize (source.drop o).takeWhile CodeUnit.isSpace = gap at hrest hdrop hgap ⊢
  rw [List.drop_drop] at hdrop
  have hlength := congrArg List.length hrest
  rw [List.length_drop, List.length_append] at hlength
  cases after with
  | nil =>
    rw [List.append_nil] at hrest
    refine ⟨_, _, read_nil hdrop, ?_⟩
    have hend : o + gap.length = max o source.length := by
      rw [List.length_nil] at hlength
      omega
    rw [hend]
    exact .ending (hrest ▸ hgap)
  | cons u rest =>
    cases h : Reading.first u rest with
    | ok r => exact ⟨_, _, read_ok hdrop h, .token (stands_of_first hrest hgap h)⟩
    | error m =>
      refine ⟨_, _, read_error hdrop h, .fault (by omega) ?_⟩
      have := Reading.first_passed h
      rw [List.length_cons] at hlength
      omega

lemma Call.bounds {r o'} (h : Call source o r o') : o ≤ o' ∧ o' ≤ max o source.length := by
  cases h with
  | ending => exact ⟨Nat.le_max_left _ _, Nat.le_refl _⟩
  | token h =>
    have := h.from_offset
    have := h.not_empty
    have := h.inside
    omega
  | fault hle hmax => exact ⟨hle, hmax⟩

lemma Call.forward {r o'} (h : Call source o r o') :
    (∃ fault, r = .error fault) ∨ (∃ t, r = .ok t ∧ t.lexeme = .eof) ∨ o < o' := by
  cases h with
  | ending => exact .inr (.inl ⟨_, rfl, rfl⟩)
  | token h => exact .inr (.inr (Nat.lt_of_le_of_lt h.from_offset h.not_empty))
  | fault => exact .inl ⟨_, rfl⟩

/-- Whatever is called, the cursor stays in its source and never goes back. -/
lemma after_start (source : Text) (o n : Nat) :
    ∃ o', after n (start source o) = start source o' ∧ o ≤ o' ∧ o' ≤ max o source.length := by
  induction n generalizing o with
  | zero => exact ⟨o, rfl, Nat.le_refl _, Nat.le_max_left _ _⟩
  | succ n ih =>
    obtain ⟨r, o₁, hnext, hcall⟩ := next_call source o
    obtain ⟨hle₁, hmax₁⟩ := hcall.bounds
    obtain ⟨o', hafter, hle, hmax⟩ := ih o₁
    rw [after, hnext]
    exact ⟨o', hafter, by omega, by omega⟩

/-- A token of a run stands in the source up to the offset after its call, or is the end. -/
lemma run_token {n t after} (h : (t, after) ∈ run n (start source o)) :
    (∃ o', t.Stands source o') ∧ t.span.stop = after ∨ t = ending source.length := by
  induction n generalizing o with
  | zero => cases h
  | succ n ih =>
    obtain ⟨r, o', hnext, hcall⟩ := next_call source o
    rw [run, hnext] at h
    cases hcall with
    | ending =>
      obtain ⟨⟩ | ⟨_, h⟩ := h
      · exact .inr rfl
      · exact ih h
    | token hstands =>
      obtain ⟨⟩ | ⟨_, h⟩ := h
      · exact .inl ⟨⟨o, hstands⟩, rfl⟩
      · exact ih h
    | fault => cases h

/-- After the end of the source all offsets are alike. -/
lemma Spaced.of_le {ts} (h : Spaced source o ts) (hle : source.length ≤ o) :
    Spaced source source.length ts := by
  cases ts with
  | nil => trivial
  | cons t ts =>
    obtain ⟨⟨hmin, -⟩, hts⟩ := h
    rw [Nat.min_eq_right hle] at hmin
    refine ⟨⟨by rwa [Nat.min_self], ?_⟩, hts⟩
    rw [Text.slice, List.drop_length, List.take_nil]
    nofun

/-- The tokens of a run are apart by white space only. -/
lemma run_spaced (n : Nat) : Spaced source o ((run n (start source o)).map Prod.fst) := by
  induction n generalizing o with
  | zero => trivial
  | succ n ih =>
    obtain ⟨r, o', hnext, hcall⟩ := next_call source o
    rw [run, hnext]
    cases hcall with
    | ending hspace =>
      refine ⟨⟨Nat.min_le_right _ _, fun u hu => hspace u (List.mem_of_mem_take hu)⟩, ?_⟩
      exact Spaced.of_le ih (Nat.le_max_right _ _)
    | token hstands =>
      exact ⟨⟨Nat.le_trans (Nat.min_le_left _ _) hstands.from_offset, hstands.gap⟩, ih⟩
    | fault => trivial

lemma Spaced.le_start {ts} (h : Spaced source o ts)
    (hts : ∀ t ∈ ts, t.span.start ≤ t.span.stop ∧ t.span.stop ≤ source.length) :
    ∀ t ∈ ts, min o source.length ≤ t.span.start := by
  induction ts generalizing o with
  | nil => nofun
  | cons t ts ih =>
    obtain ⟨⟨hmin, -⟩, hspaced⟩ := h
    obtain ⟨⟨hle, hinside⟩, hts⟩ := List.forall_mem_cons.1 hts
    refine List.forall_mem_cons.2 ⟨hmin, fun t' ht' => ?_⟩
    have := ih hspaced hts t' ht'
    omega

/-- Tokens that are apart by white space follow each other in the source. -/
lemma Spaced.pairwise {ts} (h : Spaced source o ts)
    (hts : ∀ t ∈ ts, t.span.start ≤ t.span.stop ∧ t.span.stop ≤ source.length) :
    ts.Pairwise fun t t' => t.span.stop ≤ t'.span.start := by
  induction ts generalizing o with
  | nil => exact .nil
  | cons t ts ih =>
    obtain ⟨-, hspaced⟩ := h
    obtain ⟨⟨-, hinside⟩, hts⟩ := List.forall_mem_cons.1 hts
    refine .cons (fun t' ht' => ?_) (ih hspaced hts)
    have := hspaced.le_start hts t' ht'
    omega

/-- The tokens from a cursor on are found by finitely many calls. -/
lemma tokens_run (c : Cursor) :
    ∃ n ≤ c.rest.length, (run n c).map Prod.fst = c.tokens.list ∧ c.tokens.list.length = n ∧
      (after n c).next.1 = c.tokens.last ∧ (∀ t ∈ c.tokens.list, t.lexeme.isFinal = false) ∧
      ∀ last, c.tokens.last = .ok last → last.lexeme.isFinal := by
  induction hlen : c.rest.length using Nat.strong_induction_on generalizing c with
  | _ size ih =>
    subst hlen
    obtain ⟨⟨fault⟩ | ⟨t⟩, c', hnext⟩ : ∃ r c', c.next = (r, c') := ⟨_, _, rfl⟩
    · rw [tokens_fault hnext]
      exact ⟨0, Nat.zero_le _, rfl, rfl, by rw [after, hnext], nofun, nofun⟩
    · cases ht : t.lexeme.isFinal with
      | true =>
        rw [tokens_final hnext ht]
        refine ⟨0, Nat.zero_le _, rfl, rfl, by rw [after, hnext], nofun, ?_⟩
        rintro _ ⟨⟩
        exact ht
      | false =>
        have hlt := length_next hnext ht
        obtain ⟨n, hn, hrun, hlength, hlast, hlist, hfinal⟩ := ih _ hlt c' rfl
        rw [tokens_token hnext ht]
        refine ⟨n + 1, Nat.le_trans (Nat.succ_le_succ hn) hlt, ?_, congrArg Nat.succ hlength, ?_,
          List.forall_mem_cons.2 ⟨ht, hlist⟩, hfinal⟩
        · rw [run, hnext, List.map_cons, hrun]
        · rw [after, hnext, hlast]

/-- The text of a token is where its span says. -/
lemma raw_of_tokens {t} (h : t ∈ (start source o).tokens.list) :
    t.raw = source.slice t.span.start t.span.stop := by
  obtain ⟨n, -, hrun, -, -, hlist, -⟩ := tokens_run (start source o)
  have hmem : t ∈ (run n (start source o)).map Prod.fst := hrun ▸ h
  obtain ⟨⟨t, after⟩, hcall, rfl⟩ := List.mem_map.1 hmem
  obtain ⟨⟨o', hstands⟩, -⟩ | rfl := run_token hcall
  · exact hstands.raw_eq
  · cases hlist _ h

/-- The calls on a source at an offset tile it up to the first fault: their tokens lie in order
inside the source with white space between them, and each but the end stands for the text up to the
offset after its call. Every call, also after a fault, ends, fails or goes forward, and none leaves
the source. A whole source is tokenized by finitely many calls, and its last token is its only final
one. -/
theorem calls_tile (source : Text) (o : Nat) :
    (∀ n,
      (∀ t after, (t, after) ∈ run n (start source o) →
        t.span.start ≤ t.span.stop ∧ t.span.stop ≤ source.length ∧
          (t.lexeme ≠ .eof → t.span.start < t.span.stop ∧ t.span.stop = after) ∧
          (t.lexeme ≠ .eof → (∀ value, t.lexeme ≠ .string value) →
            t.value = source.slice t.span.start t.span.stop)) ∧
        ((run n (start source o)).map Prod.fst).Pairwise
          (fun t t' => t.span.stop ≤ t'.span.start) ∧
        Spaced source o ((run n (start source o)).map Prod.fst)) ∧
      (∀ n,
        let c := after n (start source o)
        ((∃ fault, c.next.1 = .error fault) ∨ (∃ t, c.next.1 = .ok t ∧ t.lexeme = .eof) ∨
          c.offset < c.next.2.offset) ∧
          c.offset ≤ c.next.2.offset ∧ c.next.2.offset ≤ max o source.length) ∧
      (∃ n ≤ source.length,
        let ts := (run n (start source 0)).map Prod.fst
        let answer := (after n (start source 0)).next.1
        ts.length = n ∧ tokenize source = answer.map (fun last => ts ++ [last]) ∧
          ∀ last, answer = .ok last → last.lexeme.isFinal) ∧
      ∀ ts, tokenize source = .ok ts →
        ∃ before last, ts = before ++ [last] ∧ last.lexeme.isFinal ∧
          ∀ t ∈ before, t.lexeme.isFinal = false := by
  have hspan {n t after} (h : (t, after) ∈ run n (start source o)) :
      t.span.start ≤ t.span.stop ∧ t.span.stop ≤ source.length := by
    obtain ⟨⟨o', hstands⟩, -⟩ | rfl := run_token h
    · exact ⟨Nat.le_of_lt hstands.not_empty, hstands.inside⟩
    · exact ⟨Nat.le_refl _, Nat.le_refl _⟩
  obtain ⟨n, hn, hrun, hlength, hlast, hlist, hfinal⟩ := tokens_run (start source 0)
  refine ⟨fun n => ⟨fun t after h => ⟨(hspan h).1, (hspan h).2, ?_⟩, ?_, run_spaced n⟩, fun n => ?_,
    ⟨n, hn, ?_⟩, fun ts hts => ?_⟩
  · obtain ⟨⟨o', hstands⟩, hafter⟩ | rfl := run_token h
    · exact ⟨fun _ => ⟨hstands.not_empty, hafter⟩,
        fun _ hstring => (hstands.value_eq hstring).trans hstands.raw_eq⟩
    · exact ⟨fun heof => absurd rfl heof, fun heof => absurd rfl heof⟩
  · refine (run_spaced n).pairwise (List.forall_mem_map.2 ?_)
    exact fun (t, after) h => hspan h
  · obtain ⟨o', hafter, hle, hmax⟩ := after_start source o n
    obtain ⟨r, o'', hnext, hcall⟩ := next_call source o'
    obtain ⟨hle', hmax'⟩ := hcall.bounds
    simp only [hafter, hnext]
    exact ⟨hcall.forward, hle', Nat.le_trans hmax' (by omega)⟩
  · dsimp only
    rw [hrun, hlast]
    exact ⟨hlength, rfl, hfinal⟩
  · rw [tokenize] at hts
    cases heq : (start source 0).tokens.last with
    | error => rw [heq] at hts; cases hts
    | ok last =>
      rw [heq] at hts
      cases hts
      exact ⟨_, last, rfl, hfinal last heq, hlist⟩

end Cursor

end Stencil
