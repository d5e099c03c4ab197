import Stencil.Proofs.Token.Progress

/-!
# What the scanner finds in a source

Main statement: `Cursor.readIn_tokens`. The tokens of a source are lexemes that are read at its offsets
and its end, and a fault that ends them is met at an offset where no lexeme can be read. So they lie
inside the source.
-/

namespace Stencil

/-- The fault lies at an offset of a source of `size` units, its end included. -/
def SyntaxFault.LiesWithin (size : Nat) (fault : SyntaxFault) : Prop :=
  ∃ i : Nat, i ≤ size ∧ fault.index = i

/-- A misreading of a lexeme that begins with the unit `u`: it lies in the part that was passed, and no
unit but `u` is unexpected. -/
structure Misreading.Of (u : CodeUnit) (m : Misreading) : Prop where
  start_le : m.span.start ≤ m.passed
  unit_eq : ∀ v, m.fault = .unexpectedUnit v → v = u

namespace Reading

variable {u : CodeUnit} {rest : Text} {m : Misreading}

lemma number_misreading {t : Text} (h : number t = .error m) : m.Of u := by
  unfold number at h
  dsimp only at h
  split at h
  · cases h
  · split at h
    · split at h
      · cases h
        exact ⟨Nat.zero_le _, nofun⟩
      · cases h
    · cases h

lemma string_misreading {quote} (h : string quote rest = .error m) : m.Of u := by
  unfold string at h
  split at h
  · cases h
  · cases h
    exact ⟨Nat.zero_le _, nofun⟩

lemma symbol_misreading (h : symbol u rest = .error m) : m.Of u := by
  unfold symbol at h
  split at h
  · cases h
  · split at h
    · cases h
    · split at h
      · cases h
      · cases h
        refine ⟨Nat.le_refl 0, ?_⟩
        rintro _ ⟨⟩
        rfl

/-- A path is misread at a point that was passed. -/
lemma path_misreading {source width} (h : path source width rest = .error m) : m.Of u := by
  unfold path at h
  dsimp only at h
  split at h
  · cases h
    exact ⟨Nat.le_succ _, nofun⟩
  · cases h

lemma node_misreading (h : node rest = .error m) : m.Of u := by
  have hinvalid (width : Nat) : Misreading.Of u ⟨.invalidNode, ⟨0, width⟩, width⟩ :=
    ⟨Nat.zero_le width, nofun⟩
  unfold node at h
  dsimp only at h
  split at h
  · cases h
    exact hinvalid _
  · split at h
    · split at h
      · cases h
        exact hinvalid _
      · split at h
        · split at h
          · cases h
            exact hinvalid _
          · split at h
            · cases h
              exact hinvalid _
            · split at h
              · exact path_misreading h
              · cases h
                exact hinvalid _
        · cases h
          exact hinvalid _
    · cases h
      exact hinvalid _

lemma reference_misreading (h : reference rest = .error m) : m.Of u := by
  unfold reference at h
  dsimp only at h
  split at h
  · exact path_misreading h
  · split at h
    · exact node_misreading h
    · split at h
      · split at h
        · cases h
          exact ⟨Nat.zero_le _, nofun⟩
        · exact path_misreading h
      · split at h
        · exact path_misreading h
        · split at h
          · exact path_misreading h
          · split at h
            · exact path_misreading h
            · cases h
              exact ⟨Nat.zero_le _, nofun⟩

lemma first_misreading (h : first u rest = .error m) : m.Of u := by
  unfold first at h
  dsimp only at h
  split at h
  · cases h
  · split at h
    · exact number_misreading h
    · split at h
      · exact string_misreading h
      · split at h
        · exact reference_misreading h
        · split at h
          · cases h
          · exact symbol_misreading h

end Reading

/-- The token is the end of the source or a lexeme that is read at an offset of it. -/
inductive Token.ReadIn (source : Text) : Token → Prop where
  | ending : ReadIn source (Cursor.ending source.length)
  | lexeme {o u rest r} : source.drop o = u :: rest → Reading.first u rest = .ok r →
    ReadIn source ⟨r.lexeme, u :: rest.take r.more, ⟨o, o + (r.more + 1)⟩⟩

/-- The fault is met at an offset of the source where a lexeme should begin and none can be read. -/
inductive SyntaxFault.MisreadIn (source : Text) : SyntaxFault → Prop where
  | misread {o u rest m} : source.drop o = u :: rest → u.isSpace = false →
    Reading.first u rest = .error m → MisreadIn source (.lexical m.fault (m.span.shift o))

/-- All the tokens are read in the source, and so is the fault that may end them. -/
structure Tokens.ReadIn (source : Text) (tokens : Tokens) : Prop where
  all : ∀ t ∈ tokens.all, t.ReadIn source
  fault : ∀ fault, tokens.last = .error fault → fault.MisreadIn source

variable {source : Text}

lemma Text.offset_lt {o : Nat} {u : CodeUnit} {rest : Text} (h : source.drop o = u :: rest) :
    o + (rest.length + 1) = source.length := by
  have hlength := congrArg List.length h
  rw [List.length_drop, List.length_cons] at hlength
  omega

lemma Token.ReadIn.start_le {t : Token} (h : t.ReadIn source) : t.span.start ≤ source.length := by
  cases h with
  | ending => exact Nat.le_refl _
  | lexeme hdrop => exact Nat.le_of_add_right_le (Nat.le_of_eq (Text.offset_lt hdrop))

/-- The text of a token stands in the source. -/
lemma Token.ReadIn.infix_raw {t : Token} (h : t.ReadIn source) : t.raw <:+: source := by
  cases h with
  | ending => exact List.nil_infix
  | @lexeme o u rest r hdrop =>
    have hprefix : u :: rest.take r.more <+: source.drop o := by
      rw [hdrop]
      exact List.prefix_cons_inj u |>.2 (List.take_prefix _ _)
    exact hprefix.isInfix.trans (List.drop_suffix _ _).isInfix

lemma SyntaxFault.MisreadIn.liesWithin {fault : SyntaxFault} (h : fault.MisreadIn source) :
    fault.LiesWithin source.length := by
  cases h with
  | @misread o u rest m hdrop _ hfirst =>
    refine ⟨m.span.start + o, ?_, rfl⟩
    have hlength := Text.offset_lt hdrop
    have hstart := (Reading.first_misreading hfirst).start_le
    have hpassed := Reading.first_passed hfirst
    omega

namespace Cursor

/-- A call of the scanner gives a token that is read in the source, or a fault that is met there. -/
lemma next_readIn (source : Text) (o : Nat) :
    (∃ t o', (start source o).next = (.ok t, start source o') ∧ t.ReadIn source) ∨
      ∃ fault o', (start source o).next = (.error fault, start source o') ∧ fault.MisreadIn source := by
  obtain ⟨after, -, hdrop, hspace⟩ := Reading.takeWhile_split CodeUnit.isSpace (source.drop o)
  rw [next, skip_start]
  rw [List.drop_drop] at hdrop
  cases after with
  | nil => exact .inl ⟨_, _, read_nil hdrop, .ending⟩
  | cons u rest =>
    cases hfirst : Reading.first u rest with
    | ok r => exact .inl ⟨_, _, read_ok hdrop hfirst, .lexeme hdrop hfirst⟩
    | error m => exact .inr ⟨_, _, read_error hdrop hfirst, .misread hdrop (hspace u rfl) hfirst⟩

lemma run_readIn {n o : Nat} : ∀ t ∈ (run n (start source o)).map Prod.fst, t.ReadIn source := by
  induction n generalizing o with
  | zero => exact List.forall_mem_nil _
  | succ n ih =>
    obtain ⟨t, o', hnext, ht⟩ | ⟨fault, o', hnext, -⟩ := next_readIn source o
    · rw [run, hnext, List.map_cons]
      exact List.forall_mem_cons.2 ⟨ht, ih⟩
    · rw [run, hnext]
      exact List.forall_mem_nil _

/-- The tokens of a source are read in it, and the fault that may end them is met there. -/
theorem readIn_tokens (source : Text) (o : Nat) : (start source o).tokens.ReadIn source := by
  obtain ⟨n, -, hrun, -, hlast, -⟩ := tokens_run (start source o)
  obtain ⟨o', hafter, -⟩ := after_start source o n
  have hlist : ∀ t ∈ (start source o).tokens.list, t.ReadIn source := hrun ▸ run_readIn
  rw [hafter] at hlast
  obtain ⟨last, o'', hnext, hread⟩ | ⟨fault, o'', hnext, hmisread⟩ := next_readIn source o'
  · rw [hnext] at hlast
    refine ⟨List.forall_mem_append.2 ⟨hlist, ?_⟩, fun fault h => ?_⟩
    · rw [← hlast]
      exact List.forall_mem_singleton.2 hread
    · rw [← hlast] at h
      cases h
  · rw [hnext] at hlast
    refine ⟨List.forall_mem_append.2 ⟨hlist, ?_⟩, fun fault' h => ?_⟩
    · rw [← hlast]
      exact List.forall_mem_nil _
    · rw [← hlast] at h
      exact Except.error.inj h ▸ hmisread

end Cursor

end Stencil
