import Stencil.Proofs.Grammar.Call
import Stencil.Proofs.Grammar.Completeness
import Stencil.Proofs.Grammar.Pending

/-!
# One token of lookahead

`Viable s c r` says of the answer `r` to a call `c` that it rests on the tokens that the call has
passed and on the next one. What is read is read again in any other tokens that have the same lexemes
up to the next one, and a token that is refused is refused again there. Before a refused token stands
the beginning of what the call reads (`Pending`).
-/

namespace Stencil

/-- The fault is that of a token where another was expected. -/
def SyntaxFault.isRefusal : SyntaxFault → Bool
  | .unexpected .. => true
  | _ => false

namespace Setting

/-- The next token: the first of those that are left, or the final one. -/
def next? (s : Setting) : List Token → Option Token
  | t :: _ => some t
  | [] => s.last.toOption

/-- The tokens are those of a bare expression, parsed without a limit. -/
structure Plain (s : Setting) : Prop where
  opening : s.opening = none
  allows (depth : Nat) : s.Allows depth
  final {t : Token} : s.last = .ok t → t.lexeme.isFinal
  proper {fault : SyntaxFault} : s.last = .error fault → fault.isRefusal = false

/-- No check stops the parser. -/
structure Free (s : Setting) : Prop where
  ready : s.Ready
  allows (depth : Nat) : s.Allows depth

namespace Free

variable {s : Setting} {depth : Nat} {ts : List Token}

lemma blocked? (hs : s.Free) : s.blocked? ts = none := hs.ready.blocked?

lemma barred? (hs : s.Free) : s.barred? depth ts = none := hs.ready.barred? (hs.allows depth)

end Free

namespace Plain

variable {s : Setting} {depth : Nat} {ts : List Token} {fault : SyntaxFault} {t : Token}
  {expected : Expected}

lemma refuse (hs : s.Plain) (ht : s.next? ts = some t) :
    s.refuse expected ts = .unexpected expected t := by
  unfold Setting.refuse
  cases ts with
  | cons t' ts =>
    cases ht
    rfl
  | nil =>
    cases hlast : s.last with
    | error fault =>
      rw [next?, hlast] at ht
      cases ht
    | ok t' =>
      rw [next?, hlast] at ht
      cases ht
      simp only [hs.opening]

lemma refuse_proper (hs : s.Plain) (hnone : s.next? ts = none) :
    (s.refuse expected ts).isRefusal = false := by
  unfold Setting.refuse
  cases ts with
  | cons t' ts => cases hnone
  | nil =>
    cases hlast : s.last with
    | error fault => exact hs.proper hlast
    | ok t' =>
      rw [next?, hlast] at hnone
      cases hnone

lemma blocked (hs : s.Plain) (h : s.blocked? ts = some fault) : fault.isRefusal = false := by
  unfold Setting.blocked? at h
  split at h
  · cases h
  · split at h
    · next hlast =>
      cases h
      exact hs.proper hlast
    · cases h

lemma barred (hs : s.Plain) (h : s.barred? depth ts = some fault) : fault.isRefusal = false := by
  rw [barred?, tooDeep?_eq_none.2 (hs.allows depth), Option.orElse_eq_orElse, Option.orElse_eq_or,
    Option.or_none] at h
  exact hs.blocked h

/-- After all others comes the final token. -/
lemma next_final (hs : s.Plain) (ht : s.next? [] = some t) : t.lexeme.isFinal := by
  cases hlast : s.last with
  | error fault =>
    rw [next?, hlast] at ht
    cases ht
  | ok t' =>
    rw [next?, hlast] at ht
    cases ht
    exact hs.final hlast

/-- The next token has no lexeme that the tokens do not begin with, unless it is a final one. -/
lemma next_ne (hs : s.Plain) (ht : s.next? ts = some t) {l : Lexeme} (hl : l.isFinal = false)
    (hts : ∀ r p rest, ts ≠ ⟨l, r, p⟩ :: rest) : t.lexeme ≠ l := by
  rintro rfl
  cases ts with
  | cons t' ts =>
    cases ht
    exact hts t.raw t.span ts rfl
  | nil =>
    rw [hs.next_final ht] at hl
    cases hl

end Plain

/-- The tokens `ts` have the lexemes of `us` up to `rest`, and there comes the lexeme `l` next. -/
def Retraces (s : Setting) (us : List Token) (l : Lexeme) (ts rest : List Token) : Prop :=
  ∃ us' : List Token, ts = us' ++ rest ∧ us'.map Token.lexeme = us.map Token.lexeme ∧
    (s.next? rest).map Token.lexeme = some l

namespace Retraces

variable {s : Setting} {us vs ts rest : List Token} {l : Lexeme} {t : Token}

lemma nil (h : s.Retraces [] l ts rest) : ts = rest := by
  obtain ⟨us', rfl, hus, -⟩ := h
  obtain rfl := List.map_eq_nil_iff.1 hus
  rfl

lemma cons (h : s.Retraces (t :: us) l ts rest) :
    ∃ r p mid, ts = ⟨t.lexeme, r, p⟩ :: mid ∧ s.Retraces us l mid rest := by
  obtain ⟨xs, rfl, hxs, hnext⟩ := h
  obtain ⟨⟨_, r, p⟩, us', rfl, rfl, hus⟩ := List.map_eq_cons_iff.1 hxs
  exact ⟨r, p, us' ++ rest, rfl, us', rfl, hus, hnext⟩

/-- Tokens that are retraced in two parts: a token comes next to the first part as well. -/
lemma append {s' : Setting} {after : List Token} (ht : s'.next? after = some t)
    (h : s.Retraces (us ++ vs) t.lexeme ts rest) :
    ∃ t' mid, s'.next? (vs ++ after) = some t' ∧ s.Retraces us t'.lexeme ts mid ∧
      s.Retraces vs t.lexeme mid rest := by
  obtain ⟨xs, rfl, hxs, hnext⟩ := h
  rw [List.map_append] at hxs
  obtain ⟨us', ys, rfl, hus, hys⟩ := List.map_eq_append_iff.1 hxs
  cases vs with
  | nil =>
    obtain rfl := List.map_eq_nil_iff.1 hys
    exact ⟨t, rest, ht, ⟨us', by simp, hus, hnext⟩, [], rfl, rfl, hnext⟩
  | cons v vs =>
    obtain ⟨v', vs', rfl, hv, hvs⟩ := List.map_eq_cons_iff.1 hys
    refine ⟨v, v' :: (vs' ++ rest), rfl, ⟨us', by simp, hus, ?_⟩, v' :: vs', rfl, hys, hnext⟩
    exact congrArg some hv

/-- The same where the second part begins with a token. -/
lemma after (h : s.Retraces (us ++ t :: vs) l ts rest) :
    ∃ r p mid, s.Retraces us t.lexeme ts (⟨t.lexeme, r, p⟩ :: mid) ∧ s.Retraces vs l mid rest := by
  obtain ⟨xs, rfl, hxs, hnext⟩ := h
  rw [List.map_append] at hxs
  obtain ⟨us', ys, rfl, hus, hys⟩ := List.map_eq_append_iff.1 hxs
  obtain ⟨⟨_, r, p⟩, vs', rfl, rfl, hvs⟩ := List.map_eq_cons_iff.1 hys
  exact ⟨r, p, vs' ++ rest, ⟨us', by simp, hus, rfl⟩, vs', rfl, hvs, hnext⟩

lemma head (h : s.Retraces us l ts rest) : ∀ t ∈ rest.head?, t.lexeme = l := by
  obtain ⟨us', -, -, hnext⟩ := h
  rintro t ht
  cases rest with
  | nil => cases ht
  | cons t' rest =>
    cases ht
    exact Option.some.inj hnext

lemma ne_cons (h : s.Retraces us l ts rest) {l' : Lexeme} (hl : l ≠ l') :
    ∀ r p more, rest ≠ ⟨l', r, p⟩ :: more := by
  rintro r p more rfl
  exact hl (h.head _ rfl).symm

end Retraces

end Setting

namespace Call

variable {α β : Type} {ts us : List Token}

/-- The tokens that are still to be read after the parenthesis that opens arguments. -/
def ahead : {α : Type} → {ts : List Token} → Call α ts → List Token
  | _, _, .arguments _ _ rest => rest
  | _, _, c => c.tokens

/-- What the call reads. -/
def part : {α : Type} → {ts : List Token} → Call α ts → Part
  | _, _, .pipeline .. => .pipeline
  | _, _, .stages .. => .stages
  | _, _, .ternary .. => .ternary
  | _, _, .operand _ level _ => .operand level
  | _, _, .operators _ level _ => .operators level
  | _, _, .unary .. => .unary
  | _, _, .primary .. => .primary
  | _, _, .arguments .. => .arguments 0
  | _, _, .moreArguments _ done => .arguments done.value.length

/-- The call is one that the parser makes: the level exists, and a primary follows the unary
operators. -/
def Proper : {α : Type} → {ts : List Token} → Call α ts → Prop
  | _, _, .operand _ level _ => level ≤ BinaryOp.levels
  | _, _, .operators _ level _ => level < BinaryOp.levels
  | _, _, .primary _ t _ => UnaryOp.ofLexeme? t.lexeme = none
  | _, _, _ => True

/-- How many arguments there are in what the call gives. -/
def extent : {α : Type} → {ts : List Token} → Call α ts → α → Nat
  | _, _, .arguments .., args | _, _, .moreArguments .., args => args.length
  | _, _, .pipeline .., _ | _, _, .stages .., _ | _, _, .ternary .., _ | _, _, .operand .., _
  | _, _, .operators .., _ | _, _, .unary .., _ | _, _, .primary .., _ => 0

/-- What holds of the answers to the same call for other tokens. What it carries along does not
matter, apart from the number of arguments. -/
def Again (s : Setting) : {α : Type} → {ts : List Token} → Call α ts → List Token →
    (∀ {us}, Parse α us → Prop) → Prop
  | _, _, .pipeline depth _, us, P => P (Expr.parsePipeline s depth us)
  | _, _, .stages depth _ _, us, P => ∀ {base} (input : Step Expr base) (done : List Stage),
    input.rest = us → P (Expr.parseStages s depth input done)
  | _, _, .ternary depth _, us, P => P (Expr.parseTernary s depth us)
  | _, _, .operand depth level _, us, P => P (Expr.parseOperand s depth level us)
  | _, _, .operators depth level _, us, P => ∀ {base} (left : Step Expr base),
    left.rest = us → P (Expr.parseOperators s depth level left)
  | _, _, .unary depth _, us, P | _, _, .primary depth _ _, us, P => P (Expr.parseUnary s depth us)
  | _, _, .arguments depth _ _, us, P => ∀ opening, P (Expr.parseArguments s depth opening us)
  | _, _, .moreArguments depth done, us, P => ∀ {base} (done' : Step (List Expr) base),
    done'.rest = us → done'.value.length = done.value.length →
      P (Expr.parseMoreArguments s depth done')

/-- Where the tokens are retraced, the call reads them again. -/
def Rereads (c : Call α ts) (value : α) (us : List Token) (l : Lexeme) : Prop :=
  ∀ s : Setting, s.Free → ∀ ts rest, s.Retraces us l ts rest → c.Again s ts fun r =>
    ∃ step, r = .ok step ∧ step.rest = rest ∧ c.extent step.value = c.extent value

/-- Where the tokens are retraced, the call fails again. -/
def Refails (c : Call α ts) (us : List Token) (l : Lexeme) : Prop :=
  ∀ s : Setting, s.Free → ∀ ts rest, s.Retraces us l ts rest →
    c.Again s ts fun r => ∃ fault, r = .error fault

end Call

/-- The call passes the tokens, and does so again where they are retraced. -/
structure Call.Passed (s : Setting) {α : Type} {ts : List Token} (c : Call α ts) (us : List Token)
    (step : Step α ts) : Prop where
  split : c.ahead = us ++ step.rest
  again {t : Token} : s.next? step.rest = some t → c.Rereads step.value us t.lexeme

namespace Call.Passed

variable {s s' : Setting} {α : Type} {ts us vs more rest ts' rest' : List Token} {c : Call α ts}
  {step : Step α ts} {t : Token} {l : Lexeme}

lemma split_cons (h : c.Passed s us step) (hrest : step.rest = t :: more) :
    c.ahead = us ++ t :: more :=
  h.split.trans (congrArg (us ++ ·) hrest)

/-- Where more tokens are retraced than those that were passed, the call passes its own again. -/
lemma append (h : c.Passed s us step) (hrest : step.rest = vs ++ rest) (ht : s.next? rest = some t)
    (hs' : s'.Free) (hts' : s'.Retraces (us ++ vs) t.lexeme ts' rest') :
    ∃ mid, s'.Retraces vs t.lexeme mid rest' ∧ c.Again s' ts' fun r =>
      ∃ step', r = .ok step' ∧ step'.rest = mid ∧ c.extent step'.value = c.extent step.value := by
  obtain ⟨t', mid, ht', hmid, hmore⟩ := hts'.append ht
  rw [← hrest] at ht'
  exact ⟨mid, hmore, h.again ht' s' hs' ts' mid hmid⟩

/-- The same where the first of the other tokens is known. -/
lemma after (h : c.Passed s us step) (hrest : step.rest = t :: more) (hs' : s'.Free)
    (hts' : s'.Retraces (us ++ t :: vs) l ts' rest') :
    ∃ r p mid, s'.Retraces vs l mid rest' ∧ c.Again s' ts' fun q =>
      ∃ step', q = .ok step' ∧ step'.rest = ⟨t.lexeme, r, p⟩ :: mid ∧
        c.extent step'.value = c.extent step.value := by
  obtain ⟨r, p, mid, hmid, hmore⟩ := hts'.after
  exact ⟨r, p, mid, hmore, h.again (by rw [hrest]; rfl) s' hs' ts' _ hmid⟩

end Call.Passed

/-- The answer to a call rests on the tokens that it passed and on the next one, and before a token
that is refused the call has begun what it reads. -/
inductive Viable (s : Setting) {α : Type} {ts : List Token} (c : Call α ts) :
    Parse α ts → Prop where
  | read (us : List Token) {step : Step α ts} :
    c.Passed s us step →
    Viable s c (.ok step)
  | refused {us rest : List Token} {t : Token} {expected : Expected} :
    c.ahead = us ++ rest →
    s.next? rest = some t →
    Pending c.part us →
    c.Refails us t.lexeme →
    Viable s c (.error (.unexpected expected t))
  | other {fault : SyntaxFault} :
    fault.isRefusal = false →
    Viable s c (.error fault)

namespace Viable

variable {s : Setting} {α β : Type} {ts us : List Token} {c : Call α ts} {c₁ : Call β us}

lemma guard {check : Option SyntaxFault} {r : Parse α ts} :
    (∀ fault, check = some fault → fault.isRefusal = false) → Viable s c r →
    Viable s c (match check with | some fault => .error fault | none => r) := by
  intro hcheck hr
  cases check with
  | none => exact hr
  | some fault => exact .other (hcheck fault rfl)

lemma refuse (hs : s.Plain) (pre : List Token) {rest : List Token} {expected : Expected}
    (hahead : c.ahead = pre ++ rest) (hpart : Pending c.part pre)
    (hfails : ∀ t, s.next? rest = some t → c.Refails pre t.lexeme) :
    Viable s c (.error (s.refuse expected rest)) := by
  cases hnext : s.next? rest with
  | none => exact .other (hs.refuse_proper hnext)
  | some t =>
    rw [hs.refuse hnext]
    exact .refused hahead hnext hpart (hfails t hnext)

/-- A call that goes on after another one where that reads something. -/
lemma seq {r : Parse β us} {q : Parse α ts} (h : Viable s c₁ r) (pre : List Token)
    (hahead : c.ahead = pre ++ c₁.ahead)
    (hpart : ∀ vs, Pending c₁.part vs → Pending c.part (pre ++ vs))
    (hfails : ∀ vs l, c₁.Refails vs l → c.Refails (pre ++ vs) l)
    (herror : ∀ fault, r = .error fault → q = .error fault)
    (hok : ∀ step vs, r = .ok step → c₁.Passed s vs step → Viable s c q) : Viable s c q := by
  cases h with
  | read vs hpassed => exact hok _ vs rfl hpassed
  | @refused vs rest t expected hsplit hnext hpending hrefails =>
    rw [herror _ rfl]
    refine .refused ?_ hnext (hpart vs hpending) (hfails vs t.lexeme hrefails)
    rw [hahead, hsplit, List.append_assoc]
  | other hfault =>
    rw [herror _ rfl]
    exact .other hfault

/-- A call that ends with another one, and does so again where the tokens are retraced. -/
lemma tail {c₁ : Call α ts} {r : Parse α ts} (h : Viable s c₁ r) (pre : List Token)
    (hahead : c.ahead = pre ++ c₁.ahead)
    (hpart : ∀ vs, Pending c₁.part vs → Pending c.part (pre ++ vs))
    (hextent : c₁.extent = c.extent)
    (hagain : ∀ vs rest t, c₁.ahead = vs ++ rest → s.next? rest = some t →
      ∀ s' : Setting, s'.Free → ∀ us us', s'.Retraces (pre ++ vs) t.lexeme us us' →
        ∃ mid, s'.Retraces vs t.lexeme mid us' ∧
          ∀ P : ∀ {us}, Parse α us → Prop, c₁.Again s' mid P → c.Again s' us P) :
    Viable s c r := by
  cases h with
  | read vs hpassed =>
    refine .read (pre ++ vs) ⟨?_, fun ht s' hs' us us' hus => ?_⟩
    · rw [hahead, hpassed.split, List.append_assoc]
    obtain ⟨mid, hmid, hmore⟩ := hagain vs _ _ hpassed.split ht s' hs' us us' hus
    rw [← hextent]
    exact hmore _ (hpassed.again ht s' hs' mid us' hmid)
  | @refused vs rest t expected hsplit hnext hpending hrefails =>
    refine .refused ?_ hnext (hpart vs hpending) fun s' hs' us us' hus => ?_
    · rw [hahead, hsplit, List.append_assoc]
    obtain ⟨mid, hmid, hmore⟩ := hagain vs rest t hsplit hnext s' hs' us us' hus
    exact hmore _ (hrefails s' hs' mid us' hmid)
  | other hfault => exact .other hfault

end Viable

end Stencil
