import Stencil.Proofs.Registry.Built
import Stencil.Proofs.Text
import Stencil.Registry.Plugin

/-!
# Histories of registries

A registry is created without functions, and functions are added and removed one after the other, by
hand or by plugins. Main statement: `Registry.History.keeps`, what holds of a registry after any such
history. A plugin counts as the changes that it made; `Plugin.lawful_all` says that several plugins
make no others than each of them does.
-/

namespace Stencil

/-- A change of a registry that was not refused. -/
inductive Change where
  | insert (f : Registration)
  | erase (name : Text)

/-- The name whose function is changed. -/
def Change.name : Change → Text
  | .insert f => f.name
  | .erase name => name

/-- The function is the last one that the changes added under the name, and was not removed since. -/
def Latest (log : List Change) (name : Text) (f : Registration) : Prop :=
  ∃ before after, log = before ++ .insert f :: after ∧ f.name = name ∧ ∀ c ∈ after, c.name ≠ name

namespace Registry

/-- The changes lead from one registry to another. -/
inductive Changed : Registry → List Change → Registry → Prop where
  | nil {r} : Changed r [] r
  | insert {r r' r'' f log} :
    r.insert f = .ok r' →
    Changed r' log r'' →
    Changed r (.insert f :: log) r''
  | erase {r r' name log} :
    Changed (r.erase name) log r' →
    Changed r (.erase name :: log) r'

lemma Changed.append {r r' r'' : Registry} {log log' : List Change} (h : Changed r log r')
    (h' : Changed r' log' r'') : Changed r (log ++ log') r'' := by
  induction h with
  | nil => exact h'
  | insert hr _ ih => exact .insert hr (ih h')
  | erase _ ih => exact .erase (ih h')

end Registry

namespace Plugin

/-- The plugin does nothing to registries but add and remove functions. -/
def Lawful (p : Plugin) : Prop := ∀ r r', p r = .ok r' → ∃ log, Registry.Changed r log r'

lemma adding_eq_ok {f : Registration} {r r' : Registry} :
    adding f r = .ok r' ↔ r.insert f = .ok r' := by
  unfold adding
  cases r.insert f with
  | ok r₁ =>
    constructor
    · rintro ⟨⟩
      rfl
    · rintro ⟨⟩
      rfl
  | error fault => exact ⟨nofun, nofun⟩

lemma lawful_adding (f : Registration) : (adding f).Lawful :=
  fun _ _ h => ⟨_, .insert (adding_eq_ok.1 h) .nil⟩

lemma lawful_removing (name : Text) : (removing name).Lawful := by
  rintro r _ ⟨⟩
  exact ⟨_, .erase .nil⟩

/-- Several lawful plugins, one after the other, are lawful. -/
theorem lawful_all {plugins : List Plugin} (h : ∀ p ∈ plugins, p.Lawful) : (all plugins).Lawful := by
  induction plugins with
  | nil =>
    rintro r _ ⟨⟩
    exact ⟨[], .nil⟩
  | cons p rest ih =>
    obtain ⟨hp, hrest⟩ := List.forall_mem_cons.1 h
    intro r r'' hall
    rw [all, List.foldlM_cons] at hall
    cases hr : p r with
    | error rejection =>
      rw [hr] at hall
      cases hall
    | ok r' =>
      rw [hr] at hall
      obtain ⟨log, hlog⟩ := hp r r' hr
      obtain ⟨log', hlog'⟩ := ih hrest r' r'' hall
      exact ⟨_, hlog.append hlog'⟩

end Plugin

namespace Registry

/-- A registry that was created without functions and has seen the changes since, in this order. -/
inductive History : List Change → Registry → Prop where
  | created : History [] .empty
  | insert {log r r' f} :
    History log r →
    r.insert f = .ok r' →
    History (log ++ [.insert f]) r'
  | erase {log r} (name : Text) :
    History log r →
    History (log ++ [.erase name]) (r.erase name)
  | plugins {log r r' made} {plugins : List Plugin} :
    History log r →
    Plugin.all plugins r = .ok r' →
    Changed r made r' →
    History (log ++ made) r'

/-- What a registry has kept of the changes that it has seen. -/
structure Kept (log : List Change) (r : Registry) : Prop where
  unique : r.entries.Unique
  latest {name : Text} {f : Registration} : r.find? name = some f ↔ Latest log name f
  accepted {f : Registration} : .insert f ∈ log → refusal? f.name f.signature = none

variable {log made : List Change} {r r' : Registry} {f : Registration}

/-- One more change decides what is latest under its own name, and under no other. -/
lemma latest_concat {c : Change} {name : Text} :
    Latest (log ++ [c]) name f ↔ if name = c.name then c = .insert f else Latest log name f := by
  constructor
  · rintro ⟨before, after, hlog, rfl, hafter⟩
    obtain rfl | ⟨after, last, rfl⟩ := after.eq_nil_or_concat
    · obtain ⟨-, hc⟩ := List.append_inj' hlog rfl
      cases hc
      exact (if_pos rfl).mpr rfl
    · rw [List.concat_eq_append, ← List.cons_append, ← List.append_assoc] at hlog
      obtain ⟨rfl, hc⟩ := List.append_inj' hlog rfl
      cases hc
      rw [List.concat_eq_append, List.forall_mem_append, List.forall_mem_singleton] at hafter
      rw [if_neg (Ne.symm hafter.2)]
      exact ⟨before, after, rfl, rfl, hafter.1⟩
  · intro h
    split at h
    · next hname =>
      subst h
      exact ⟨log, [], rfl, hname.symm, nofun⟩
    · next hname =>
      obtain ⟨before, after, rfl, hf, hafter⟩ := h
      refine ⟨before, after ++ [c], by rw [List.append_assoc]; rfl, hf, ?_⟩
      exact List.forall_mem_append.2 ⟨hafter, List.forall_mem_singleton.2 (Ne.symm hname)⟩

lemma kept_created : Kept [] .empty where
  unique := List.nodup_nil
  latest := by
    refine ⟨nofun, ?_⟩
    rintro ⟨before, after, h, -, -⟩
    cases before <;> cases h
  accepted := nofun

lemma Kept.insert (h : Kept log r) (hr : r.insert f = .ok r') : Kept (log ++ [.insert f]) r' where
  unique := by
    rw [Registry.insert] at hr
    split at hr
    · cases hr
    · cases hr
      exact Table.unique_insert h.unique _ _
  latest := by
    intro name g
    rw [find?_of_insert hr, latest_concat, Change.name, ← h.latest]
    split
    · constructor
      · rintro ⟨⟩
        rfl
      · rintro ⟨⟩
        rfl
    · exact Iff.rfl
  accepted := by
    intro g hg
    obtain hg | hg := List.mem_append.1 hg
    · exact h.accepted hg
    · cases List.mem_singleton.1 hg
      exact exists_insert.1 ⟨_, hr⟩

lemma Kept.erase (h : Kept log r) (name : Text) : Kept (log ++ [.erase name]) (r.erase name) where
  unique := by
    rw [Registry.erase]
    split
    · exact Table.unique_erase h.unique name
    · exact h.unique
  latest := by
    intro name' g
    rw [find?_erase, latest_concat, Change.name, ← h.latest]
    split
    · constructor
      · rintro ⟨⟩
      · rintro ⟨⟩
    · exact Iff.rfl
  accepted := by
    intro g hg
    obtain hg | hg := List.mem_append.1 hg
    · exact h.accepted hg
    · cases List.mem_singleton.1 hg

lemma Kept.changed (h : Kept log r) (hr : Changed r made r') : Kept (log ++ made) r' := by
  induction hr generalizing log with
  | nil => rwa [List.append_nil]
  | insert hr _ ih =>
    rw [List.append_cons]
    exact ih (h.insert hr)
  | erase _ ih =>
    rw [List.append_cons]
    exact ih (h.erase _)

lemma History.kept (h : History log r) : Kept log r := by
  induction h with
  | created => exact kept_created
  | insert _ hr ih => exact ih.insert hr
  | erase name _ ih => exact ih.erase name
  | plugins _ _ hmade ih => exact ih.changed hmade

/-- Only functions that were added are found, and only those are added that are not refused. -/
lemma Kept.of_find? (h : Kept log r) {name : Text} (hf : r.find? name = some f) :
    f.name = name ∧ f.name.isName = true ∧ f.name ≠ "if" ∧
      ∀ s, f.signature = some s → s.Ordered := by
  obtain ⟨before, after, rfl, hname, -⟩ := h.latest.1 hf
  have hmem : .insert f ∈ before ++ .insert f :: after :=
    List.mem_append_right _ List.mem_cons_self
  exact ⟨hname, refusal?_eq_none.1 (h.accepted hmem)⟩

lemma mem_names {name : Text} : name ∈ r.names ↔ r.has name = true := by
  rw [names, List.mem_mergeSort, Table.mem_keys_iff]
  rfl

lemma has_iff {name : Text} : r.has name = true ↔ ∃ f, r.find? name = some f :=
  Option.isSome_iff_exists

/-- A history goes on with lawful plugins, as far as none of their functions is refused. -/
lemma History.attach (h : History log r) {plugins : List Plugin} (hp : ∀ p ∈ plugins, p.Lawful)
    (hr : Plugin.all plugins r = .ok r') : ∃ made, History (log ++ made) r' := by
  obtain ⟨made, hmade⟩ := Plugin.lawful_all hp r r' hr
  exact ⟨made, .plugins h hr hmade⟩

/-- After every history a registry lists its names in strict order, as many as there are functions. It
has just the names that it lists, and under each the function that was added last and not removed
since, which has that name. All names can be called, and all signatures have the required parameters
first. What is refused is so by a diagnostic of a call, and plugins go on with the history. -/
theorem History.keeps (h : History log r) :
    (r.names.Pairwise (· < ·) ∧ r.size = r.names.length) ∧
    (∀ name, (r.has name = true ↔ name ∈ r.names) ∧
      (r.has name = true ↔ ∃ f, r.find? name = some f)) ∧
    (∀ name f, r.find? name = some f ↔
      ∃ before after, log = before ++ .insert f :: after ∧ f.name = name ∧
        ∀ c ∈ after, c.name ≠ name) ∧
    (∀ name f, r.find? name = some f → f.name = name) ∧
    (∀ name ∈ r.names, name.isName = true ∧ name ≠ "if") ∧
    (∀ name f s, r.find? name = some f → f.signature = some s →
      ∃ required optional, s.parameters = required ++ optional ∧
        (∀ p ∈ required, p.isOptional = false) ∧ ∀ p ∈ optional, p.isOptional = true) ∧
    (∀ f fault, r.insert f = .error fault →
      (fault.diagnostic f.name).category = .signature f.name) ∧
    ∀ plugins : List Plugin, (∀ p ∈ plugins, p.Lawful) → ∀ r', Plugin.all plugins r = .ok r' →
      ∃ made, History (log ++ made) r' := by
  have hkept := h.kept
  refine ⟨⟨Text.pairwise_sort hkept.unique, ?_⟩, fun name => ⟨mem_names.symm, has_iff⟩,
    fun name f => hkept.latest, ?_, ?_, ?_, ?_, fun plugins hp r' hr => h.attach hp hr⟩
  · rw [size, names, List.length_mergeSort, Table.length_keys]
  · intro name f hf
    exact (hkept.of_find? hf).1
  · intro name hname
    obtain ⟨f, hf⟩ := has_iff.1 (mem_names.1 hname)
    obtain ⟨rfl, hisName, hif, -⟩ := hkept.of_find? hf
    exact ⟨hisName, hif⟩
  · intro name f s hf
    exact (hkept.of_find? hf).2.2.2 s
  · intro f fault _
    rfl

theorem History.keeps_plugins :
    let s : Signature := ⟨[⟨"x", .any, true, none⟩, ⟨"y", .any, false, none⟩], false⟩
    let f : Registration := ⟨"f", fun _ => .ok .null, none⟩
    let g : Registration := ⟨"g", fun _ => .ok .null, none⟩
    let f' : Registration := ⟨"f", fun _ => .ok (.bool true), some s⟩
    let set : PluginSet := ⟨"set", [.adding f', .removing "g"]⟩
    ∃ r r', History [.insert f, .insert g] r ∧ r.names.Pairwise (· < ·) ∧ r.names.length = 2 ∧
      r.find? "f" = some f ∧ set.attach r = .ok r' ∧
      History [.insert f, .insert g, .insert f', .erase "g"] r' ∧ r'.names.length = 1 ∧
      r'.find? "f" = some f' ∧ ∃ required optional, s.parameters = required ++ optional ∧
        (∀ p ∈ required, p.isOptional = false) ∧ ∀ p ∈ optional, p.isOptional = true := by
  intro s f g f' set
  have hf : History [.insert f] _ := .insert .created rfl
  have hg : History [.insert f, .insert g] _ := .insert hf rfl
  have hset : History [.insert f, .insert g, .insert f', .erase "g"] _ :=
    .plugins hg (show Plugin.all set.plugins _ = .ok _ from rfl) (.insert rfl (.erase .nil))
  obtain ⟨⟨hsorted, hsize⟩, -, hlatest, -⟩ := hg.keeps
  obtain ⟨⟨-, hsize'⟩, -, hlast, -, -, hordered, -⟩ := hset.keeps
  have hne : ("g" : Text) ≠ "f" := by decide
  have hfound := (hlatest "f" f).2 ⟨[], [.insert g], rfl, rfl, List.forall_mem_singleton.2 hne⟩
  have hfound' := (hlast "f" f').2
    ⟨[.insert f, .insert g], [.erase "g"], rfl, rfl, List.forall_mem_singleton.2 hne⟩
  exact ⟨_, _, hg, hsorted, hsize.symm, hfound, rfl, hset, hsize'.symm, hfound',
    hordered "f" f' s hfound' rfl⟩

end Registry

end Stencil
