import Stencil.Proofs.Registry.Built

/-!
# Binding arguments

Which arguments a registered function takes, and what it receives. Main statement:
`Registration.bind_exact`. That a parameter reported as missing exists and is required, and that all
required parameters are bound, follows from the order of the parameters alone, which the registry has
checked.
-/

namespace Stencil

namespace Signature

/-- The argument at a place has the type of the parameter there; past the last parameter, of that. -/
def FitsAt (s : Signature) (place : Nat) (v : Value) : Prop :=
  ∀ p, s.parameters[min place (s.parameters.length - 1)]? = some p → p.type.accepts v = true

/-- All arguments have the types of their parameters. -/
def Fits (s : Signature) (args : List Value) : Prop := ∀ i v, args[i]? = some v → s.FitsAt i v

/-- All defaults have the types of their own parameters. -/
def DefaultsFit (s : Signature) : Prop :=
  ∀ p ∈ s.parameters, ∀ v, p.fallback = some v → p.type.accepts v = true

/-- Values are the defaults of parameters in order, up to the first that has none. -/
def Defaults (parameters : List Parameter) (values : List Value) : Prop :=
  ∃ filled rest, parameters = filled ++ rest ∧ filled.map Parameter.fallback = values.map some ∧
    ∀ p ∈ rest.head?, p.fallback = none

/-- Why arguments are refused: there are too many, a required one is missing, or, where their number
is allowed, the first one that does not fit. -/
inductive Refuses (s : Signature) (args : List Value) : BindFault → Prop where
  | tooMany :
    s.variadic = false →
    s.parameters.length < args.length →
    Refuses s args (.tooMany s.parameters.length args.length)
  | missing {p} :
    args.length < s.least →
    s.parameters[args.length]? = some p →
    p.isOptional = false →
    Refuses s args (.missing p.name)
  | mismatch {i v p} :
    s.Allows args.length →
    args[i]? = some v →
    s.parameters[min i (s.parameters.length - 1)]? = some p →
    p.type.accepts v = false →
    (∀ j w, j < i → args[j]? = some w → s.FitsAt j w) →
    Refuses s args (.mismatch p.name p.type v.kind)

variable {s : Signature} {args : List Value}

lemma exceeds_eq_false {count : Nat} :
    s.exceeds count = false ↔ (s.variadic = false → count ≤ s.parameters.length) := by
  unfold exceeds most?
  cases s.variadic <;> simp

lemma exceeds_eq_true {count : Nat} :
    s.exceeds count = true ↔ s.variadic = false ∧ s.parameters.length < count := by
  unfold exceeds most?
  cases s.variadic <;> simp

/-- An argument that fits is passed over, one that does not is a fault. -/
lemma checkKinds_cons (place : Nat) (v : Value) (rest : List Value) :
    (s.FitsAt place v ∧ s.checkKinds place (v :: rest) = s.checkKinds (place + 1) rest) ∨
      ∃ p, s.parameters[min place (s.parameters.length - 1)]? = some p ∧
        p.type.accepts v = false ∧
        s.checkKinds place (v :: rest) = .error (.mismatch p.name p.type v.kind) := by
  cases hp : s.parameterAt? place with
  | none =>
    refine .inl ⟨?_, by rw [checkKinds, hp]⟩
    intro p hp'
    cases hp.symm.trans hp'
  | some p =>
    cases haccepts : p.type.accepts v with
    | true =>
      refine .inl ⟨?_, ?_⟩
      · intro p' hp'
        cases hp.symm.trans hp'
        exact haccepts
      · rw [checkKinds, hp]
        exact if_pos haccepts
    | false =>
      refine .inr ⟨p, hp, haccepts, ?_⟩
      rw [checkKinds, hp]
      exact if_neg (Bool.eq_false_iff.1 haccepts)

/-- The check of kinds passes arguments that all fit, and else stops at the first that does not. -/
lemma checkKinds_cases (place : Nat) (args : List Value) :
    (s.checkKinds place args = .ok () ∧ ∀ i v, args[i]? = some v → s.FitsAt (place + i) v) ∨
      ∃ i v p, args[i]? = some v ∧
        s.parameters[min (place + i) (s.parameters.length - 1)]? = some p ∧
        p.type.accepts v = false ∧ (∀ j w, j < i → args[j]? = some w → s.FitsAt (place + j) w) ∧
        s.checkKinds place args = .error (.mismatch p.name p.type v.kind) := by
  induction args generalizing place with
  | nil => exact .inl ⟨rfl, nofun⟩
  | cons v rest ih =>
    obtain ⟨hfits, heq⟩ | ⟨p, hp, haccepts, heq⟩ := s.checkKinds_cons place v rest
    · rw [heq]
      obtain ⟨hok, hall⟩ | ⟨i, w, p, hw, hp, haccepts, hbefore, herror⟩ := ih (place + 1)
      · refine .inl ⟨hok, fun i w hw => ?_⟩
        cases i with
        | zero =>
          cases hw
          exact hfits
        | succ i => rw [Nat.add_comm i, ← Nat.add_assoc]; exact hall i w hw
      · refine .inr ⟨i + 1, w, p, hw, ?_, haccepts, fun j x hj hx => ?_, herror⟩
        · rwa [Nat.add_comm i, ← Nat.add_assoc]
        · cases j with
          | zero =>
            cases hx
            exact hfits
          | succ j =>
            rw [Nat.add_comm j, ← Nat.add_assoc]
            exact hbefore j x (Nat.lt_of_succ_lt_succ hj) hx
    · exact .inr ⟨0, v, p, rfl, hp, haccepts, nofun, heq⟩

lemma defaults_exact (parameters : List Parameter) : Defaults parameters (defaults parameters) := by
  induction parameters with
  | nil => exact ⟨[], [], rfl, rfl, nofun⟩
  | cons p rest ih =>
    rw [defaults]
    cases hp : p.fallback with
    | none =>
      refine ⟨[], p :: rest, rfl, rfl, ?_⟩
      rintro _ ⟨⟩
      exact hp
    | some v =>
      obtain ⟨filled, rest', rfl, hfilled, hrest⟩ := ih
      exact ⟨p :: filled, rest', rfl, by rw [List.map_cons, hp, hfilled]; rfl, hrest⟩

/-- What is left after the defaults has none to begin with. -/
lemma defaults_drop (parameters : List Parameter) :
    defaults (parameters.drop (defaults parameters).length) = [] := by
  induction parameters with
  | nil => rfl
  | cons p rest ih =>
    cases hp : p.fallback with
    | none =>
      rw [defaults, hp, List.length_nil, List.drop_zero, defaults, hp]
    | some v =>
      rw [defaults, hp]
      exact ih

lemma fallback_of_defaults {parameters : List Parameter} {i : Nat} {v : Value}
    (h : (defaults parameters)[i]? = some v) :
    ∃ p, parameters[i]? = some p ∧ p.fallback = some v := by
  induction parameters generalizing i with
  | nil => cases h
  | cons p rest ih =>
    rw [defaults] at h
    cases hp : p.fallback with
    | none => rw [hp] at h; cases h
    | some w =>
      rw [hp] at h
      cases i with
      | zero =>
        cases h
        exact ⟨p, rfl, hp⟩
      | succ i => exact ih h

lemma bind_eq_ok {bound : List Value} :
    s.bind args = .ok bound ↔
      s.Allows args.length ∧ s.Fits args ∧
        bound = args ++ defaults (s.parameters.drop args.length) := by
  constructor
  · intro h
    have hcount := count_of_bind h
    rw [bind, if_neg (Bool.eq_false_iff.1 hcount.2), if_neg (Nat.not_lt.2 hcount.1)] at h
    obtain ⟨hok, hall⟩ | ⟨i, v, p, -, -, -, -, herror⟩ := s.checkKinds_cases 0 args
    · rw [hok] at h
      cases h
      refine ⟨hcount, fun i v hv => ?_, rfl⟩
      rw [← Nat.zero_add i]
      exact hall i v hv
    · rw [herror] at h
      cases h
  · rintro ⟨hcount, hfits, rfl⟩
    rw [bind, if_neg (Bool.eq_false_iff.1 hcount.2), if_neg (Nat.not_lt.2 hcount.1)]
    obtain ⟨hok, -⟩ | ⟨i, v, p, hv, hp, haccepts, -, -⟩ := s.checkKinds_cases 0 args
    · rw [hok]
      rfl
    · rw [Nat.zero_add] at hp
      rw [hfits i v hv p hp] at haccepts
      cases haccepts

/-- Arguments are refused for the first reason there is; the number is looked at first. -/
lemma bind_eq_error (hs : s.Ordered) {fault : BindFault} :
    s.bind args = .error fault ↔ s.Refuses args fault := by
  have hle := s.least_le
  constructor
  · intro h
    rw [bind] at h
    split at h
    · next hmost =>
      cases h
      obtain ⟨hvariadic, hlt⟩ := exceeds_eq_true.1 hmost
      exact .tooMany hvariadic hlt
    · next hmost =>
      split at h
      · next hleast =>
        cases h
        have hlt : args.length < s.parameters.length := Nat.lt_of_lt_of_le hleast hle
        have hp := List.getElem?_eq_getElem hlt
        rw [hp]
        exact .missing hleast hp ((hs.required_iff hp).2 hleast)
      · next hleast =>
        have hcount : s.Allows args.length := ⟨Nat.le_of_not_lt hleast, Bool.eq_false_iff.2 hmost⟩
        obtain ⟨hok, -⟩ | ⟨i, v, p, hv, hp, haccepts, hbefore, herror⟩ := s.checkKinds_cases 0 args
        · rw [hok] at h
          cases h
        · rw [herror] at h
          cases h
          simp only [Nat.zero_add] at hp hbefore
          exact .mismatch hcount hv hp haccepts hbefore
  · intro h
    cases h with
    | tooMany hvariadic hlt => exact if_pos (exceeds_eq_true.2 ⟨hvariadic, hlt⟩)
    | missing hleast hp _ =>
      have hmost : s.exceeds args.length = false := exceeds_eq_false.2 fun _ => by omega
      rw [bind, if_neg (Bool.eq_false_iff.1 hmost), if_pos hleast, hp]
      rfl
    | @mismatch i v p hcount hv hp haccepts hbefore =>
      rw [bind, if_neg (Bool.eq_false_iff.1 hcount.2), if_neg (Nat.not_lt.2 hcount.1)]
      obtain ⟨-, hall⟩ | ⟨j, w, q, hw, hq, haccepts', hbefore', herror⟩ := s.checkKinds_cases 0 args
      · rw [← Nat.zero_add i] at hp
        rw [hall i v hv p hp] at haccepts
        cases haccepts
      · simp only [Nat.zero_add] at hq hbefore'
        -- neither of two first misfits is before the other
        obtain hij | rfl | hij := Nat.lt_trichotomy i j
        · rw [hbefore' i v hij hv p hp] at haccepts
          cases haccepts
        · cases hv.symm.trans hw
          cases hp.symm.trans hq
          rw [herror]
          rfl
        · rw [hbefore j w hij hw q hq] at haccepts'
          cases haccepts'

/-- Arguments that are bound with their defaults have a number that is allowed. -/
lemma allows_bound (h : s.Allows args.length) :
    s.Allows (args ++ defaults (s.parameters.drop args.length)).length := by
  have hdefaults (parameters : List Parameter) : (defaults parameters).length ≤ parameters.length := by
    obtain ⟨filled, rest, rfl, hfilled, -⟩ := defaults_exact parameters
    have hlength := congrArg List.length hfilled
    rw [List.length_map, List.length_map] at hlength
    rw [List.length_append, hlength]
    exact Nat.le_add_right ..
  have hlength := hdefaults (s.parameters.drop args.length)
  rw [List.length_drop] at hlength
  refine ⟨Nat.le_trans h.1 ?_, ?_⟩
  · rw [List.length_append]
    exact Nat.le_add_right ..
  · rw [exceeds_eq_false]
    intro hvariadic
    have := exceeds_eq_false.1 h.2 hvariadic
    rw [List.length_append]
    omega

/-- Defaults that fit their own parameters fit at the places where they are put. -/
lemma fits_bound (h : s.Fits args) (hdefaults : s.DefaultsFit) :
    s.Fits (args ++ defaults (s.parameters.drop args.length)) := by
  intro i v hv
  by_cases hi : i < args.length
  · rw [List.getElem?_append_left hi] at hv
    exact h i v hv
  · rw [List.getElem?_append_right (Nat.le_of_not_lt hi)] at hv
    obtain ⟨p, hp, hfallback⟩ := fallback_of_defaults hv
    rw [List.getElem?_drop, Nat.add_sub_of_le (Nat.le_of_not_lt hi)] at hp
    have hlt := (List.getElem?_eq_some_iff.1 hp).1
    intro q hq
    rw [Nat.min_eq_left (by omega), hp] at hq
    cases hq
    exact hdefaults p (List.mem_of_getElem? hp) v hfallback

/-- Binding what was bound changes nothing. -/
lemma bind_bound {bound : List Value} (h : s.bind args = .ok bound) (hdefaults : s.DefaultsFit) :
    s.bind bound = .ok bound := by
  obtain ⟨hcount, hfits, rfl⟩ := bind_eq_ok.1 h
  refine bind_eq_ok.2 ⟨allows_bound hcount, fits_bound hfits hdefaults, ?_⟩
  rw [List.length_append, ← List.drop_drop, defaults_drop, List.append_nil]

end Signature

namespace Registration

lemma bind_of_signature {f : Registration} {s : Signature} (hs : f.signature = some s)
    (args : List Value) : f.bind args = s.bind args := by
  rw [bind, hs]

/-- The arguments of a call are bound exactly if there are at least as many as parameters required, no
more than parameters unless the function is variadic, and each fits. The function then receives them
and the defaults of the parameters omitted, which covers all that are required; to bind them again
changes nothing if the defaults fit. Else the number is reported, as a required parameter if one is
missing, and where it is allowed, the first argument that does not fit. -/
theorem bind_exact {r r' : Registry} {f : Registration} {s : Signature} (hf : r.insert f = .ok r')
    (hs : f.signature = some s) (args : List Value) :
    ((∃ bound, f.bind args = .ok bound) ↔
      s.least ≤ args.length ∧ (s.variadic = false → args.length ≤ s.parameters.length) ∧
        s.Fits args) ∧
    (∀ bound, f.bind args = .ok bound →
      (∃ values, bound = args ++ values ∧
        Signature.Defaults (s.parameters.drop args.length) values) ∧
      (∀ i p, s.parameters[i]? = some p → p.isOptional = false → i < bound.length) ∧
      (s.DefaultsFit → f.bind bound = .ok bound)) ∧
    ∀ fault, f.bind args = .error fault ↔ s.Refuses args fault := by
  obtain ⟨-, -, hsignature⟩ := Registry.exists_insert_iff.1 ⟨r', hf⟩
  have hordered := hsignature s hs
  simp only [bind_of_signature hs]
  refine ⟨?_, ?_, fun fault => Signature.bind_eq_error hordered⟩
  · constructor
    · rintro ⟨bound, h⟩
      obtain ⟨⟨hleast, hmost⟩, hfits, -⟩ := Signature.bind_eq_ok.1 h
      exact ⟨hleast, Signature.exceeds_eq_false.1 hmost, hfits⟩
    · rintro ⟨hleast, hmost, hfits⟩
      have hcount : s.Allows args.length := ⟨hleast, Signature.exceeds_eq_false.2 hmost⟩
      exact ⟨_, Signature.bind_eq_ok.2 ⟨hcount, hfits, rfl⟩⟩
  · intro bound h
    refine ⟨?_, ?_, Signature.bind_bound h⟩
    · obtain ⟨-, -, rfl⟩ := Signature.bind_eq_ok.1 h
      exact ⟨_, rfl, Signature.defaults_exact _⟩
    · intro i p hp hrequired
      obtain ⟨⟨hleast, -⟩, -, rfl⟩ := Signature.bind_eq_ok.1 h
      have hi := (hordered.required_iff hp).1 hrequired
      rw [List.length_append]
      omega

theorem bind_exact_pad :
    let eight : Value := .integer ⟨8, by decide⟩
    let s : Signature :=
      ⟨[⟨"text", .kind "string", true, none⟩, ⟨"width", .number, true, some eight⟩,
        ⟨"fill", .any, false, none⟩], false⟩
    let f : Registration := ⟨"pad", fun _ => .ok .null, some s⟩
    (∃ r, Registry.empty.insert f = .ok r) ∧ f.signature = some s ∧
    s.Fits [.string "x"] ∧ f.bind [.string "x"] = .ok [.string "x", eight] ∧
    s.DefaultsFit ∧ f.bind [.string "x", eight] = .ok [.string "x", eight] ∧
    s.Refuses [] (.missing "text") ∧
    s.Refuses [.null, .null] (.mismatch "text" (.kind "string") .null) := by
  intro eight s f
  have hexact := bind_exact (r := .empty) (f := f) (s := s) rfl rfl
  have hbind : f.bind [.string "x"] = .ok [.string "x", eight] := rfl
  have hdefaults : s.DefaultsFit := by
    intro p hp v hv
    simp only [s, List.mem_cons, List.not_mem_nil, or_false] at hp
    obtain rfl | rfl | rfl := hp
    · cases hv
    · cases hv
      rfl
    · cases hv
  obtain ⟨hiff, hbound, -⟩ := hexact [.string "x"]
  obtain ⟨-, -, hfits⟩ := hiff.1 ⟨_, hbind⟩
  obtain ⟨-, -, hagain⟩ := hbound _ hbind
  obtain ⟨-, -, hnone⟩ := hexact []
  obtain ⟨-, -, hnull⟩ := hexact [.null, .null]
  exact ⟨⟨_, rfl⟩, rfl, hfits, hbind, hdefaults, hagain hdefaults, (hnone _).1 rfl, (hnull _).1 rfl⟩

end Registration

end Stencil
