import Mathlib.Data.List.Infix
import Stencil.Proofs.Expr.Nodes

/-!
# Events of traversals

What a visitor is told, in the order in which it is told. A full traversal goes through the tour of an
expression, in which every node is entered once and left once, as brackets open and close. Main
statement: `Visitor.traverse_told`. A visitor that skips nodes is not told what lies below them nor
that they are left, and one that stops is told all up to the enter at which it does.
-/

namespace Stencil

/-- A node is entered or left, below its parent and at its depth. -/
structure Event where
  entering : Bool
  node : Expr
  parent : Option Expr
  depth : Nat

/-- How many nodes are entered. -/
def enters (events : List Event) : Nat := events.countP Event.entering

/-- Events with the paths of their nodes. A path lists the numbers of the parts that lead to a node. -/
abbrev Tour := List (List Nat × Event)

namespace Tour

/-- Tours of parts, which are numbered from `n` on, as tours of the whole. -/
def numbered (n : Nat) : List Tour → Tour
  | [] => []
  | t :: rest => t.map (Prod.map (n :: ·) id) ++ numbered (n + 1) rest

lemma mem_numbered {n : Nat} {ts : List Tour} {x : List Nat × Event} :
    x ∈ numbered n ts ↔ ∃ i t path, ts[i]? = some t ∧ x.1 = (n + i) :: path ∧ (path, x.2) ∈ t := by
  induction ts generalizing n with
  | nil => exact ⟨nofun, fun ⟨_, _, _, h, _⟩ => nomatch h⟩
  | cons t rest ih =>
    rw [numbered, List.mem_append, ih, List.mem_map]
    constructor
    · rintro (⟨y, hy, rfl⟩ | ⟨i, u, path, hu, hpath, hmem⟩)
      · exact ⟨0, t, y.1, rfl, rfl, hy⟩
      · exact ⟨i + 1, u, path, hu, by rw [hpath, Nat.add_assoc, Nat.add_comm 1], hmem⟩
    · rintro ⟨i, u, path, hu, hpath, hmem⟩
      cases i with
      | zero =>
        cases hu
        exact .inl ⟨(path, x.2), hmem, Prod.ext hpath.symm rfl⟩
      | succ i => exact .inr ⟨i, u, path, hu, by rw [hpath, Nat.add_assoc, Nat.add_comm 1], hmem⟩

lemma map_snd_numbered (n : Nat) (ts : List Tour) :
    (numbered n ts).map Prod.snd = ts.flatMap fun t => t.map Prod.snd := by
  induction ts generalizing n with
  | nil => rfl
  | cons t rest ih =>
    rw [numbered, List.map_append, List.map_map, ih]
    rfl

/-- A relation that orders the parts, and the events in each of them, orders all events. -/
lemma pairwise_numbered {R : List Nat × Event → List Nat × Event → Prop}
    (hparts : ∀ {i j p q ev ev'}, i < j → R (i :: p, ev) (j :: q, ev'))
    (hwithin : ∀ {i p q ev ev'}, R (p, ev) (q, ev') → R (i :: p, ev) (i :: q, ev'))
    (n : Nat) {ts : List Tour} (h : ∀ t ∈ ts, t.Pairwise R) : (numbered n ts).Pairwise R := by
  induction ts generalizing n with
  | nil => exact .nil
  | cons t rest ih =>
    obtain ⟨ht, hrest⟩ := List.forall_mem_cons.1 h
    rw [numbered, List.pairwise_append, List.pairwise_map]
    refine ⟨ht.imp hwithin, ih (n + 1) hrest, ?_⟩
    intro x hx y hy
    obtain ⟨x', -, rfl⟩ := List.mem_map.1 hx
    obtain ⟨i, u, q, -, hq, -⟩ := mem_numbered.1 hy
    obtain ⟨path, ev⟩ := y
    cases hq
    exact hparts (by omega)

end Tour

namespace Expr

/-- The node that a path leads to. -/
def at? : Expr → List Nat → Option Expr
  | e, [] => some e
  | e, i :: path => e.children[i]?.bind fun c => c.at? path

/-- The events of a full traversal: an expression is entered, then its parts are toured in order, then
it is left. -/
def tour (parent : Option Expr) (depth : Nat) (e : Expr) : Tour :=
  ([], ⟨true, e, parent, depth⟩) ::
    (Tour.numbered 0 (e.children.attach.map fun c => tour (some e) (depth + 1) c.1) ++
      [([], ⟨false, e, parent, depth⟩)])
termination_by e.size
decreasing_by exact size_child c.2

lemma tour_eq (parent : Option Expr) (depth : Nat) (e : Expr) :
    e.tour parent depth = ([], ⟨true, e, parent, depth⟩) ::
      (Tour.numbered 0 (e.children.map (tour (some e) (depth + 1))) ++
        [([], ⟨false, e, parent, depth⟩)]) := by
  rw [tour, List.attach_map_val]

end Expr

/-- Nodes are left after those below them, and parts in their order. -/
inductive Postorder : List Nat → List Nat → Prop where
  | whole {i : Nat} {p : List Nat} : Postorder (i :: p) []
  | part {i j : Nat} {p q : List Nat} : i < j → Postorder (i :: p) (j :: q)
  | within {i : Nat} {p q : List Nat} : Postorder p q → Postorder (i :: p) (i :: q)

/-- Events open and close nodes as brackets, below nodes that are open already, the innermost first. An
event tells the innermost open node and one more than how many are open. -/
inductive Bracketed : List Expr → List Event → Prop where
  | nil : Bracketed [] []
  | enter {e : Expr} {outer : List Expr} {rest : List Event} :
    Bracketed (e :: outer) rest →
    Bracketed outer (⟨true, e, outer.head?, outer.length + 1⟩ :: rest)
  | leave {e : Expr} {outer : List Expr} {rest : List Event} :
    Bracketed outer rest →
    Bracketed (e :: outer) (⟨false, e, outer.head?, outer.length + 1⟩ :: rest)

/-- A tour enters every node once, in pre-order, and leaves every node once, in post-order. -/
structure Expr.Toured (e : Expr) (t : Tour) : Prop where
  node : ∀ x ∈ t, e.at? x.1 = some x.2.node
  every : ∀ path node, e.at? path = some node → ∀ entering, ∃ x ∈ t, x.1 = path ∧
    x.2.entering = entering
  preorder : t.Pairwise fun x y => x.2.entering = true → y.2.entering = true → x.1 < y.1
  postorder : t.Pairwise fun x y => x.2.entering = false → y.2.entering = false → Postorder x.1 y.1
  bracketed : Bracketed [] (t.map Prod.snd)

namespace Expr

/-! ## Tours -/

/-- An event of a tour is that the whole is entered or left, or one of the tour of a part. -/
lemma mem_tour {parent : Option Expr} {depth : Nat} {e : Expr} {x : List Nat × Event} :
    x ∈ e.tour parent depth ↔ x = ([], ⟨true, e, parent, depth⟩) ∨
      (∃ i c path, e.children[i]? = some c ∧ x.1 = i :: path ∧
        (path, x.2) ∈ c.tour (some e) (depth + 1)) ∨
      x = ([], ⟨false, e, parent, depth⟩) := by
  rw [tour_eq, List.mem_cons, List.mem_append, Tour.mem_numbered, List.mem_singleton]
  refine or_congr Iff.rfl (or_congr ?_ Iff.rfl)
  constructor
  · rintro ⟨i, t, path, ht, hpath, hmem⟩
    rw [List.getElem?_map] at ht
    obtain ⟨c, hc, rfl⟩ := Option.map_eq_some_iff.1 ht
    exact ⟨i, c, path, hc, hpath.trans (by rw [Nat.zero_add]), hmem⟩
  · rintro ⟨i, c, path, hc, hpath, hmem⟩
    refine ⟨i, _, path, ?_, hpath.trans (by rw [Nat.zero_add]), hmem⟩
    rw [List.getElem?_map, hc]
    rfl

lemma at?_tour {parent : Option Expr} {depth : Nat} {e : Expr} {x : List Nat × Event}
    (h : x ∈ e.tour parent depth) : e.at? x.1 = some x.2.node := by
  induction e using induct_children generalizing parent depth x with
  | step e ih =>
    obtain rfl | ⟨i, c, path, hc, hpath, hmem⟩ | rfl := mem_tour.1 h
    · rfl
    · rw [hpath, at?, hc, Option.bind_some]
      exact ih c (List.mem_of_getElem? hc) hmem
    · rfl

/-- Every node is entered and left. -/
lemma mem_tour_of_at? {path : List Nat} {e node : Expr} (h : e.at? path = some node)
    (parent : Option Expr) (depth : Nat) (entering : Bool) :
    ∃ ev, (path, ev) ∈ e.tour parent depth ∧ ev.entering = entering := by
  induction path generalizing e parent depth with
  | nil =>
    cases entering with
    | true => exact ⟨_, mem_tour.2 (.inl rfl), rfl⟩
    | false => exact ⟨_, mem_tour.2 (.inr (.inr rfl)), rfl⟩
  | cons i path ih =>
    obtain ⟨c, hc, hnode⟩ := Option.bind_eq_some_iff.1 h
    obtain ⟨ev, hev, hentering⟩ := ih hnode (some e) (depth + 1)
    exact ⟨ev, mem_tour.2 (.inr (.inl ⟨i, c, path, hc, rfl, hev⟩)), hentering⟩

/-- Nodes are entered in pre-order and left in post-order. -/
lemma pairwise_tour (parent : Option Expr) (depth : Nat) (e : Expr) :
    (e.tour parent depth).Pairwise fun x y =>
      (x.2.entering = true → y.2.entering = true → x.1 < y.1) ∧
      (x.2.entering = false → y.2.entering = false → Postorder x.1 y.1) := by
  induction e using induct_children generalizing parent depth with
  | step e ih =>
    rw [tour_eq, List.pairwise_cons, List.pairwise_append]
    have hbelow {x : List Nat × Event}
        (hx : x ∈ Tour.numbered 0 (e.children.map (tour (some e) (depth + 1)))) :
        ∃ i path, x.1 = i :: path := by
      obtain ⟨i, -, path, -, hpath, -⟩ := Tour.mem_numbered.1 hx
      exact ⟨_, path, hpath⟩
    refine ⟨?_, ?_, List.pairwise_singleton _ _, ?_⟩
    · intro y hy
      refine ⟨fun _ hentering => ?_, nofun⟩
      obtain hy | hy := List.mem_append.1 hy
      · obtain ⟨i, path, hpath⟩ := hbelow hy
        rw [hpath]
        exact List.nil_lt_cons _ _
      · cases List.mem_singleton.1 hy
        cases hentering
    · apply Tour.pairwise_numbered
      · intro i j p q ev ev' hij
        exact ⟨fun _ _ => List.cons_lt_cons_iff.2 (.inl hij), fun _ _ => .part hij⟩
      · intro i p q ev ev' h
        exact ⟨fun hx hy => List.cons_lt_cons_iff.2 (.inr ⟨rfl, h.1 hx hy⟩),
          fun hx hy => .within (h.2 hx hy)⟩
      · intro t ht
        obtain ⟨c, hc, rfl⟩ := List.mem_map.1 ht
        exact ih c hc _ _
    · intro x hx y hy
      cases List.mem_singleton.1 hy
      obtain ⟨i, path, hpath⟩ := hbelow hx
      rw [hpath]
      exact ⟨nofun, fun _ _ => .whole⟩

/-- A tour opens and closes its nodes. -/
lemma bracketed_tour {outer : List Expr} {rest : List Event} (e : Expr) (h : Bracketed outer rest) :
    Bracketed outer ((e.tour outer.head? (outer.length + 1)).map Prod.snd ++ rest) := by
  induction e using induct_children generalizing outer rest with
  | step e ih =>
    have parts (cs : List Expr) (hcs : ∀ c ∈ cs, c ∈ e.children) {rest : List Event}
        (h : Bracketed (e :: outer) rest) :
        Bracketed (e :: outer)
          ((cs.map (tour (some e) (outer.length + 1 + 1))).flatMap (fun t => t.map Prod.snd) ++
            rest) := by
      induction cs with
      | nil => exact h
      | cons c cs ihcs =>
        obtain ⟨hc, hcs⟩ := List.forall_mem_cons.1 hcs
        rw [List.map_cons, List.flatMap_cons, List.append_assoc]
        exact ih c hc (ihcs hcs)
    rw [tour_eq, List.map_cons, List.map_append, Tour.map_snd_numbered, List.cons_append,
      List.append_assoc]
    exact .enter (parts e.children (fun _ hc => hc) (.leave h))

/-- A full traversal is a tour. -/
theorem toured_tour (e : Expr) : e.Toured (e.tour none 1) where
  node _ h := at?_tour h
  every path node h entering := by
    obtain ⟨ev, hmem, hentering⟩ := mem_tour_of_at? h none 1 entering
    exact ⟨(path, ev), hmem, rfl, hentering⟩
  preorder := (pairwise_tour none 1 e).imp And.left
  postorder := (pairwise_tour none 1 e).imp And.right
  bracketed := by
    have h := bracketed_tour e .nil
    rw [List.append_nil] at h
    exact h

/-! ## Skipping -/

/-- A node above that of the event is skipped, or the event is that a skipped node is left. -/
def hides (skips : Expr → Bool) (e : Expr) (x : List Nat × Event) : Bool :=
  x.1.inits.any fun path => (e.at? path).any skips && (path != x.1 || !x.2.entering)

/-- The events of a tour without those that are hidden. -/
def kept (skips : Expr → Bool) (parent : Option Expr) (depth : Nat) (e : Expr) : List Event :=
  ((e.tour parent depth).filter fun x => !e.hides skips x).map Prod.snd

variable (skips : Expr → Bool)

lemma hides_nil (e : Expr) (ev : Event) : e.hides skips ([], ev) = (skips e && !ev.entering) := by
  simp [hides, at?]

lemma hides_cons {e c : Expr} {i : Nat} (h : e.children[i]? = some c) (x : List Nat × Event) :
    e.hides skips (Prod.map (i :: ·) id x) = (skips e || c.hides skips x) := by
  have hat (path : List Nat) : e.at? (i :: path) = c.at? path := by rw [at?, h, Option.bind_some]
  have hroot : e.at? [] = some e := rfl
  have hne : ([] != i :: x.1) = true := rfl
  have hcons (path : List Nat) : (i :: path != i :: x.1) = (path != x.1) := by
    rw [bne, bne, List.cons_beq_cons, beq_self_eq_true, Bool.true_and]
  simp only [hides, Prod.map, id, List.inits, List.any_cons, List.any_map, Function.comp_def, hat,
    hroot, hne, hcons, Option.any_some, Bool.true_or, Bool.and_true]

/-- What is kept of the tours of parts, which are numbered from `n` on. -/
lemma kept_parts {e : Expr} (depth n : Nat) (cs : List Expr)
    (h : ∀ i, cs[i]? = e.children[n + i]?) :
    ((Tour.numbered n (cs.map (tour (some e) depth))).filter fun x => !e.hides skips x).map Prod.snd =
      if skips e then [] else cs.flatMap (kept skips (some e) depth) := by
  induction cs generalizing n with
  | nil => exact (ite_self []).symm
  | cons c cs ih =>
    have hc : e.children[n]? = some c := (h 0).symm
    have hcs (i : Nat) : cs[i]? = e.children[n + 1 + i]? := by
      rw [Nat.add_assoc, Nat.add_comm 1, ← h (i + 1), List.getElem?_cons_succ]
    rw [List.map_cons, Tour.numbered, List.filter_append, List.map_append, ih _ hcs, List.filter_map,
      List.map_map]
    simp only [Function.comp_def, hides_cons skips hc, Bool.not_or]
    cases hskip : skips e with
    | true => simp
    | false => simp [kept, List.flatMap_cons, Prod.map]

/-- A skipped node is entered only; any other is entered, its parts are visited, and it is left. -/
lemma kept_eq (parent : Option Expr) (depth : Nat) (e : Expr) :
    e.kept skips parent depth = ⟨true, e, parent, depth⟩ ::
      if skips e then [] else
        e.children.flatMap (kept skips (some e) (depth + 1)) ++ [⟨false, e, parent, depth⟩] := by
  have hparts := kept_parts skips (e := e) (depth + 1) 0 e.children fun i => by rw [Nat.zero_add]
  rw [kept, tour_eq, List.filter_cons_of_pos (by rw [hides_nil]; simp), List.filter_append,
    List.map_cons, List.map_append, hparts]
  cases hskip : skips e with
  | true => rw [List.filter_cons_of_neg (by rw [hides_nil, hskip]; simp)]; rfl
  | false => rw [List.filter_cons_of_pos (by rw [hides_nil, hskip]; simp)]; rfl

/-- Nothing is hidden where nothing is skipped. -/
lemma kept_none (parent : Option Expr) (depth : Nat) (e : Expr) :
    e.kept (fun _ => false) parent depth = (e.tour parent depth).map Prod.snd := by
  have hall : ∀ x ∈ e.tour parent depth, !e.hides (fun _ => false) x := by
    intro x _
    simp [hides]
  rw [kept, List.filter_eq_self.2 hall]

end Expr

/-! ## Stopping -/

/-- What of some events is told if the enter of a number is the last: all up to that enter, or all if
there is no such enter. -/
inductive UpTo (events : List Event) : Option Nat → List Event → Prop where
  | all {last : Option Nat} : (∀ n ∈ last, n = 0 ∨ enters events < n) → UpTo events last events
  | enter {before after : List Event} {ev : Event} :
    events = before ++ ev :: after → ev.entering = true →
    UpTo events (some (enters before + 1)) (before ++ [ev])

lemma enters_append (events events' : List Event) :
    enters (events ++ events') = enters events + enters events' :=
  List.countP_append

lemma enters_cons_of_entering {ev : Event} (h : ev.entering = true) (events : List Event) :
    enters (ev :: events) = enters events + 1 :=
  List.countP_cons_of_pos h

lemma enters_cons_of_leaving {ev : Event} (h : ev.entering = false) (events : List Event) :
    enters (ev :: events) = enters events :=
  List.countP_cons_of_neg (Bool.eq_false_iff.1 h)

/-- The enter of a number is one event. -/
lemma enter_unique {before before' after after' : List Event} {ev ev' : Event}
    (h : before ++ ev :: after = before' ++ ev' :: after') (hev : ev.entering = true)
    (hev' : ev'.entering = true) (hnumber : enters before = enters before') :
    before ++ [ev] = before' ++ [ev'] := by
  obtain ⟨more, hbefore, hmore⟩ | ⟨more, hbefore, hmore⟩ := List.append_eq_append_iff.1 h
  · cases more with
    | nil =>
      cases hmore
      rw [hbefore, List.append_nil]
    | cons x more =>
      cases hmore
      rw [hbefore, enters_append, enters_cons_of_entering hev] at hnumber
      omega
  · cases more with
    | nil =>
      cases hmore
      rw [hbefore, List.append_nil]
    | cons x more =>
      cases hmore
      rw [hbefore, enters_append, enters_cons_of_entering hev'] at hnumber
      omega

lemma UpTo.unique {events told told' : List Event} {last : Option Nat} (h : UpTo events last told)
    (h' : UpTo events last told') : told = told' := by
  cases h with
  | all hall =>
    cases h' with
    | all => rfl
    | enter hevents hev =>
      have hlt := hall _ rfl
      rw [hevents, enters_append, enters_cons_of_entering hev] at hlt
      omega
  | @enter before after ev hevents hev =>
    generalize hnumber : some (enters before + 1) = last at h'
    cases h' with
    | all hall =>
      have hlt := hall _ hnumber.symm
      rw [hevents, enters_append, enters_cons_of_entering hev] at hlt
      omega
    | enter hevents' hev' =>
      exact enter_unique (hevents.symm.trans hevents') hev hev'
        (Nat.succ.inj (Option.some.inj hnumber))

namespace Visitor

variable {σ : Type} (v : Visitor σ)

/-- What the visitor does when it is told an event. -/
def tell (s : σ) (ev : Event) : σ :=
  if ev.entering then (v.enter ev.node ev.parent ev.depth s).2
  else v.leave ev.node ev.parent ev.depth s

/-- After it was told any events from `s` on, the visitor asks to stop at the enter of a number, and to
skip a node if that is one to be skipped. -/
def Directed (s : σ) (skips : Expr → Bool) (last : Option Nat) : Prop :=
  ∀ told e parent depth, (v.enter e parent depth (told.foldl v.tell s)).1 =
    if last = some (enters told + 1) then .stop else if skips e then .skip else .proceed

/-- The visitor that notes what it is told. -/
def recording (skips : Expr → Bool) (last : Option Nat) : Visitor (List Event) where
  enter e parent depth told :=
    (if last = some (enters told + 1) then .stop else if skips e then .skip else .proceed,
      told ++ [⟨true, e, parent, depth⟩])
  leave e parent depth told := told ++ [⟨false, e, parent, depth⟩]

/-- The state in which a visitor ends, having stopped or not. -/
def ended : Except σ σ → σ
  | .ok s | .error s => s

/-- Tells the visitor an event. The result is an error where it stops. -/
def step (s : σ) (ev : Event) : Except σ σ :=
  if ev.entering = true ∧ (v.enter ev.node ev.parent ev.depth s).1 = .stop then .error (v.tell s ev)
  else .ok (v.tell s ev)

lemma foldlM_step {events : List Event} {s s' : σ} (h : events.foldlM v.step s = .ok s') :
    s' = events.foldl v.tell s := by
  induction events generalizing s with
  | nil => cases h; rfl
  | cons ev rest ih =>
    rw [List.foldlM_cons, step] at h
    split at h
    · cases h
    · exact ih h

lemma foldl_recording (skips : Expr → Bool) (last : Option Nat) (events noted : List Event) :
    events.foldl (recording skips last).tell noted = noted ++ events := by
  induction events generalizing noted with
  | nil => exact (List.append_nil noted).symm
  | cons ev rest ih =>
    have htell : (recording skips last).tell noted ev = noted ++ [ev] := by
      obtain ⟨entering, node, parent, depth⟩ := ev
      cases entering <;> rfl
    rw [List.foldl_cons, htell, ih, List.append_assoc, List.singleton_append]

/-- The visitor that notes what it is told is directed. -/
lemma directed_recording (skips : Expr → Bool) (last : Option Nat) :
    (recording skips last).Directed [] skips last := by
  intro told e parent depth
  rw [foldl_recording, List.nil_append]
  rfl

section

variable {v} {s : σ} {skips : Expr → Bool} {last : Option Nat} (hv : v.Directed s skips last)

include hv

/-- A directed visitor is told what is kept of a tour, one event after the other. -/
theorem walk_directed (told : List Event) (parent : Option Expr) (depth : Nat) (e : Expr) :
    v.walk parent depth (told.foldl v.tell s) e =
      (e.kept skips parent depth).foldlM v.step (told.foldl v.tell s) := by
  induction e using Expr.induct_children generalizing told parent depth with
  | step e ih =>
    have parts (cs : List Expr) (hcs : ∀ c ∈ cs, c ∈ e.children) (told : List Event) :
        cs.foldlM (v.walk (some e) (depth + 1)) (told.foldl v.tell s) =
          (cs.flatMap (Expr.kept skips (some e) (depth + 1))).foldlM v.step (told.foldl v.tell s) := by
      induction cs generalizing told with
      | nil => rfl
      | cons c cs ihcs =>
        obtain ⟨hc, hcs⟩ := List.forall_mem_cons.1 hcs
        rw [List.foldlM_cons, List.flatMap_cons, List.foldlM_append, ih c hc]
        cases hfold : (c.kept skips (some e) (depth + 1)).foldlM v.step (told.foldl v.tell s) with
        | error => rfl
        | ok s' =>
          have hs' := v.foldlM_step hfold
          rw [← List.foldl_append] at hs'
          rw [hs']
          exact ihcs hcs _
    let entered : Event := ⟨true, e, parent, depth⟩
    have hsignal := hv told e parent depth
    have hnext : v.tell (told.foldl v.tell s) entered = (told ++ [entered]).foldl v.tell s := by
      rw [List.foldl_append]
      rfl
    have henter : v.enter e parent depth (told.foldl v.tell s) =
        ((v.enter e parent depth (told.foldl v.tell s)).1, v.tell (told.foldl v.tell s) entered) := rfl
    rw [walk_eq, Expr.kept_eq, visit, henter, List.foldlM_cons, step, hsignal]
    by_cases hlast : last = some (enters told + 1)
    · rw [if_pos hlast]
      rfl
    · rw [if_neg hlast]
      cases hskip : skips e with
      | true => rfl
      | false =>
        have hchildren := parts e.children (fun _ hc => hc) (told ++ [entered])
        rw [← hnext] at hchildren
        let leaving : Event := ⟨false, e, parent, depth⟩
        change (e.children.foldlM (v.walk (some e) (depth + 1))
            (v.tell (told.foldl v.tell s) entered)).map (v.leave e parent depth) =
          (e.children.flatMap (Expr.kept skips (some e) (depth + 1)) ++ [leaving]).foldlM v.step
            (v.tell (told.foldl v.tell s) entered)
        rw [List.foldlM_append, hchildren]
        cases (e.children.flatMap (Expr.kept skips (some e) (depth + 1))).foldlM v.step
          (v.tell (told.foldl v.tell s) entered) with
        | error => rfl
        | ok => rfl

/-- Of some events a directed visitor is told those up to the enter at which it stops. -/
lemma upTo_foldlM {done : List Event} (hdone : ∀ n ∈ last, n = 0 ∨ enters done < n)
    (events : List Event) :
    ∃ told, UpTo (done ++ events) last told ∧
      ended (events.foldlM v.step (done.foldl v.tell s)) = told.foldl v.tell s := by
  induction events generalizing done with
  | nil =>
    rw [List.append_nil]
    exact ⟨done, .all hdone, rfl⟩
  | cons ev rest ih =>
    have hnext : v.tell (done.foldl v.tell s) ev = (done ++ [ev]).foldl v.tell s := by
      rw [List.foldl_append]
      rfl
    have hsignal := hv done ev.node ev.parent ev.depth
    rw [List.foldlM_cons, step, hsignal, hnext]
    by_cases hstop : ev.entering = true ∧ last = some (enters done + 1)
    · obtain ⟨hev, hlast⟩ := hstop
      rw [if_pos hlast, if_pos ⟨hev, rfl⟩, hlast]
      exact ⟨done ++ [ev], .enter rfl hev, rfl⟩
    · have hgo : ¬ (ev.entering = true ∧ (if last = some (enters done + 1) then Signal.stop
          else if skips ev.node then .skip else .proceed) = .stop) := by
        rintro ⟨hev, hsignal⟩
        rw [if_neg fun hlast => hstop ⟨hev, hlast⟩] at hsignal
        split at hsignal <;> cases hsignal
      have hmore : ∀ n ∈ last, n = 0 ∨ enters (done ++ [ev]) < n := by
        intro n hn
        refine (hdone n hn).imp_right fun hlt => ?_
        rw [enters_append]
        cases hev : ev.entering with
        | false => rwa [enters_cons_of_leaving hev]
        | true =>
          have hne : n ≠ enters done + 1 := by
            rintro rfl
            exact hstop ⟨hev, hn⟩
          rw [enters_cons_of_entering hev]
          change enters done + 1 < n
          omega
      obtain ⟨told, htold, hstate⟩ := ih hmore
      rw [List.append_assoc] at htold
      rw [if_neg hgo]
      exact ⟨told, htold, hstate⟩

/-- A directed visitor is told what is kept of the full traversal, up to the enter at which it stops. -/
theorem upTo_traverse (e : Expr) :
    ∃ told, UpTo (e.kept skips none 1) last told ∧ e.traverse v s = told.foldl v.tell s := by
  have hstart : ∀ n ∈ last, n = 0 ∨ enters [] < n := fun n _ => Nat.eq_zero_or_pos n
  obtain ⟨told, htold, hstate⟩ := upTo_foldlM hv hstart (e.kept skips none 1)
  refine ⟨told, htold, ?_⟩
  rw [← hstate, ← walk_directed hv]
  rfl

end

/-- The events that are noted are those that any visitor with the same directions is told. The full
tour enters and leaves every node once, in pre-order and in post-order, and opens and closes them as
brackets; without directions all of it is told. Of skipped nodes only the enter is kept, and with a stop
all is told up to that enter. -/
theorem traverse_told (e : Expr) (skips : Expr → Bool) (last : Option Nat) :
    let told := e.traverse (recording skips last) []
    e.Toured (e.tour none 1) ∧ e.kept (fun _ => false) none 1 = (e.tour none 1).map Prod.snd ∧
    UpTo (e.kept skips none 1) last told ∧
    ∀ {σ : Type} (v : Visitor σ) (s : σ), v.Directed s skips last →
      e.traverse v s = told.foldl v.tell s := by
  intro told
  obtain ⟨noted, hnoted, hstate⟩ := upTo_traverse (directed_recording skips last) e
  rw [foldl_recording, List.nil_append] at hstate
  have htold : told = noted := hstate
  rw [htold]
  refine ⟨e.toured_tour, e.kept_none none 1, hnoted, ?_⟩
  intro σ v s hv
  obtain ⟨told', htold', hstate'⟩ := upTo_traverse hv e
  rw [hstate', hnoted.unique htold']

theorem traverse_told_stop :
    let one : Expr := .literal ⟨4, 5⟩ (.integer .one) "1"
    let call : Expr := .call ⟨0, 6⟩ "len" [one]
    let e : Expr := .binary ⟨0, 10⟩ .add call one
    let skips : Expr → Bool := fun e => e.form == .call
    let count : Visitor Nat :=
      ⟨fun e _ _ n => (if some 3 = some (n + 1) then .stop else if skips e then .skip else .proceed,
        n + 1), fun _ _ _ n => n⟩
    count.Directed 0 skips (some 3) ∧
    e.traverse (recording skips (some 3)) [] =
      [⟨true, e, none, 1⟩, ⟨true, call, some e, 2⟩, ⟨true, one, some e, 2⟩] ∧
    e.traverse count 0 = (e.traverse (recording skips (some 3)) []).foldl count.tell 0 ∧
    e.traverse count 0 = 3 := by
  intro one call e skips count
  have hcount (told : List Event) (n : Nat) : told.foldl count.tell n = n + enters told := by
    induction told generalizing n with
    | nil => rfl
    | cons ev rest ih =>
      obtain ⟨entering, node, parent, depth⟩ := ev
      rw [List.foldl_cons, ih]
      cases entering with
      | false => rw [enters_cons_of_leaving rfl]; rfl
      | true => rw [enters_cons_of_entering rfl, Nat.add_comm (enters rest), ← Nat.add_assoc]; rfl
  have hdirected : count.Directed 0 skips (some 3) := by
    intro told e parent depth
    rw [hcount, Nat.zero_add]
  obtain ⟨-, -, -, htold⟩ := traverse_told e skips (some 3)
  exact ⟨hdirected, rfl, htold count 0 hdirected, rfl⟩

end Visitor

end Stencil
