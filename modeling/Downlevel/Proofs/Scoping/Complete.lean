import Downlevel.Proofs.Reading.ApartStatements
import Downlevel.Proofs.Runs
import Downlevel.Proofs.Scoping.Numbering
import Mathlib.Logic.Relation

/-! The scopes of a program that was read: a search through them goes up the scopes around, and each
part of the program finds the scope that it opened. -/

namespace Downlevel

namespace ScopeTree

/-- One scope is right around another. -/
def Around (tree : ScopeTree) (inner outer : ScopeId) : Prop :=
  ∃ data, tree.scopes[inner]? = some data ∧ data.parent = some outer

/-- A scope binds a name itself. -/
def Binds (tree : ScopeTree) (scope : ScopeId) (name : String) : Prop :=
  ∃ data, tree.scopes[scope]? = some data ∧ name ∈ data.declared.names

/-- The variables that are declared in a scope are its own. -/
def OwnsVars (tree : ScopeTree) (scope : ScopeId) : Prop :=
  ∃ data, tree.scopes[scope]? = some data ∧ data.kind.ownsVars = true

/-- The nearest scope that owns variables, going up from a scope. -/
inductive NearestOwner (tree : ScopeTree) : ScopeId → ScopeId → Prop
  | own {scope : ScopeId} : tree.OwnsVars scope → NearestOwner tree scope scope
  | around {scope outer owner : ScopeId} : ¬tree.OwnsVars scope → tree.Around scope outer →
    NearestOwner tree outer owner → NearestOwner tree scope owner

section Search

variable {tree : ScopeTree} {scope outer : ScopeId} {data : Scope} {name : String} {fuel : Nat}

/-- The scope around is the one that is recorded. -/
theorem around_iff (found : tree.scopes[scope]? = some data) :
    tree.Around scope outer ↔ data.parent = some outer := by
  simp [Around, found]

/-- A scope binds the names that are recorded for it. -/
theorem binds_iff (found : tree.scopes[scope]? = some data) :
    tree.Binds scope name ↔ name ∈ data.declared.names := by
  simp [Binds, found]

/-- Whether a scope owns variables depends on its kind. -/
theorem ownsVars_iff (found : tree.scopes[scope]? = some data) :
    tree.OwnsVars scope ↔ data.kind.ownsVars = true := by
  simp [OwnsVars, found]

/-- A search looks at a scope first, and goes on in the scope around. -/
theorem resolvesWithin_succ (found : tree.scopes[scope]? = some data) :
    tree.resolvesWithin name (fuel + 1) scope
      = (data.declared.contains name || data.parent.any (tree.resolvesWithin name fuel)) := by
  obtain ⟨kind, parent, declared⟩ := data
  rw [resolvesWithin, found]
  cases parent <;> rfl

/-- A name resolves if the scope or one around it binds the name. -/
theorem resolvesWithin_iff (sound : tree.Sound) (enough : scope < fuel) :
    tree.resolvesWithin name fuel scope = true
      ↔ ∃ outer, Relation.ReflTransGen tree.Around scope outer ∧ tree.Binds outer name := by
  -- By induction on the fuel: the scope around has a smaller number.
  induction fuel generalizing scope with
  | zero => exact absurd enough (Nat.not_lt_zero _)
  | succ fuel ih =>
    cases found : tree.scopes[scope]? with
    | none =>
      refine iff_of_false (by simp [resolvesWithin, found]) ?_
      rintro ⟨outer, up, binds⟩
      rcases up.cases_head with rfl | ⟨next, ⟨data, some, -⟩, -⟩
      · obtain ⟨data, some, -⟩ := binds
        simp [found] at some
      · simp [found] at some
    | some data =>
      have above (parent : ScopeId) (isAround : data.parent = some parent) :
          tree.resolvesWithin name fuel parent = true
            ↔ ∃ outer, Relation.ReflTransGen tree.Around parent outer ∧ tree.Binds outer name :=
        ih (Nat.lt_of_lt_of_le (sound scope data found parent isAround) (Nat.le_of_lt_succ enough))
      rw [resolvesWithin_succ found, Bool.or_eq_true, Option.any_eq_true, NameSet.contains,
        List.contains_iff_mem, ← binds_iff found]
      constructor
      · rintro (binds | ⟨parent, isAround, resolves⟩)
        · exact ⟨scope, .refl, binds⟩
        · obtain ⟨outer, further, binds⟩ := (above parent isAround).mp resolves
          exact ⟨outer, further.head ((around_iff found).mpr isAround), binds⟩
      · rintro ⟨outer, up, binds⟩
        rcases up.cases_head with rfl | ⟨parent, isAround, further⟩
        · exact .inl binds
        · have isAround := (around_iff found).mp isAround
          exact .inr ⟨parent, isAround, (above parent isAround).mpr ⟨outer, further, binds⟩⟩

/-- Variables land in the nearest scope that owns them. -/
theorem nearestOwner_varScopeWithin? (sound : tree.Sound)
    (isOwner : ∀ (scope : ScopeId) (data : Scope), tree.scopes[scope]? = some data →
      data.parent = none → data.kind.ownsVars = true)
    (enough : scope < fuel) (inside : scope < tree.size) :
    ∃ owner, tree.varScopeWithin? fuel scope = some owner ∧ tree.NearestOwner scope owner := by
  induction fuel generalizing scope with
  | zero => exact absurd enough (Nat.not_lt_zero _)
  | succ fuel ih =>
    obtain ⟨data, found⟩ : ∃ data, tree.scopes[scope]? = some data :=
      ⟨_, Array.getElem?_eq_getElem inside⟩
    simp only [varScopeWithin?, found, Option.bind_eq_bind, Option.bind_some]
    by_cases owns : data.kind.ownsVars = true
    · exact ⟨scope, by rw [if_pos owns]; rfl, .own ((ownsVars_iff found).mpr owns)⟩
    · rw [if_neg owns]
      cases isAround : data.parent with
      | none => exact absurd (isOwner scope data found isAround) owns
      | some parent =>
        have less : parent < scope := sound scope data found parent isAround
        obtain ⟨owner, search, nearest⟩ :=
          ih (Nat.lt_of_lt_of_le less (Nat.le_of_lt_succ enough)) (Nat.lt_trans less inside)
        exact ⟨owner, search, .around (mt (ownsVars_iff found).mp owns)
          ((around_iff found).mpr isAround) nearest⟩

end Search

section Places

variable {openings : List Opening} {next index : Nat} {one : Opening}

/-- A scope is found where it was opened. -/
theorem mem_placesFrom {place : Span × ScopeKind × ScopeId}
    (mem : place ∈ placesFrom next openings) :
    ∃ one ∈ openings, place.1 = one.span ∧ place.2.1 = one.kind := by
  simp only [placesFrom, List.mem_reverse, List.mem_map, Prod.exists] at mem
  obtain ⟨one, scope, found, rfl⟩ := mem
  exact ⟨one, List.fst_mem_of_mem_zipIdx found, rfl, rfl⟩

/-- Where no two scopes of one kind are opened at the same span, each is found by both. -/
theorem find?_placesFrom
    (apart : openings.Pairwise fun one other => one.kind = other.kind → one.span ≠ other.span)
    (found : openings[index]? = some one) :
    (placesFrom next openings).find? (fun (span, kind, _) => span == one.span && kind == one.kind)
      = some (one.span, one.kind, next + index) := by
  obtain ⟨inside, rfl⟩ := List.getElem?_eq_some_iff.mp found
  have split : openings = openings.take index ++ openings[index] :: openings.drop (index + 1) := by
    rw [← List.drop_eq_getElem_cons inside, List.take_append_drop]
  generalize openings[index] = one at split ⊢
  have length : (openings.take index).length = index := by simp; omega
  generalize openings.take index = front at split length
  generalize openings.drop (index + 1) = back at split
  subst split length
  -- Later scopes come first, and none of them has the same span and kind.
  have behind := (List.pairwise_cons.mp (List.pairwise_append.mp apart).2.1).1
  have places : placesFrom next (front ++ one :: back)
      = placesFrom (next + front.length + 1) back
        ++ (one.span, one.kind, next + front.length) :: placesFrom next front := by
    rw [placesFrom_append, ← List.singleton_append, placesFrom_append]
    simp [placesFrom]
  rw [places]
  refine List.find?_eq_some_iff_append.mpr ⟨by simp, _, _, rfl, fun place mem => ?_⟩
  obtain ⟨other, isLater, span, kind⟩ := mem_placesFrom mem
  have apart := behind other isLater
  simp only [span, kind, Bool.not_eq_true', Bool.and_eq_false_imp, beq_iff_eq, beq_eq_false_iff_ne]
  exact fun sameSpan sameKind => apart sameKind.symm sameSpan.symm

end Places

/-- What the scopes of a file are to the program in it. -/
structure Describes (tree : ScopeTree) (program : Program) : Prop where
  /-- There is a scope for the whole file, and one for each region inside that of the region
  around. -/
  frames : tree.frames = (.module, none) :: program.openings.map Opening.frame
  /-- Only the scope of the whole file has none around. -/
  root : ∀ (scope : ScopeId) (data : Scope), tree.scopes[scope]? = some data →
    (data.parent = none ↔ scope = ScopeTree.root)
  /-- The scope around comes first. -/
  sound : tree.Sound
  resolves : ∀ scope < tree.size, ∀ name, tree.resolves scope name = true
    ↔ ∃ outer, Relation.ReflTransGen tree.Around scope outer ∧ tree.Binds outer name
  varScope : ∀ scope < tree.size,
    ∃ owner, tree.varScope? scope = some owner ∧ tree.NearestOwner scope owner
  recorded : ∀ name, tree.declares name = true → tree.isUsed name = true
  used : ∀ name, tree.isUsed name = true ↔ name ∈ program.names
  /-- The span and the kind of a region find the scope that was opened for it. -/
  found : ∀ index one, program.openings[index]? = some one →
    tree.scopeAt? one.span one.kind = some (index + 1)
  apart : program.openings.Pairwise fun one other => one.kind = other.kind → one.span ≠ other.span

end ScopeTree

open ScopeTree

/-- Regions that start at different places are opened at different spans. -/
theorem Program.openings_apart {program : Program}
    (nodup : (marksOf (stmtsRegions program.body)).Nodup) :
    program.openings.Pairwise fun one other => one.kind = other.kind → one.span ≠ other.span := by
  rw [← map_openingsOf ScopeTree.root 1, List.Nodup, List.pairwise_map] at nodup
  refine nodup.imp fun differ sameKind sameSpan => differ ?_
  rw [sameKind, sameSpan]

/-- The scopes of a program that was read are complete, and every node that opens a scope finds its
own one. -/
theorem scopes_complete {source : String} {parsed : Parsed} (read : parse source = .ok parsed) :
    ∃ tree, parsed.program.scopes? = some tree ∧ tree.Describes parsed.program := by
  obtain ⟨tree, isTree, sound, surveyed⟩ := parsed.program.scopes?_surveyed
  have apart := Program.openings_apart (nodup_marks_of_parse read)
  have frames : tree.frames
      = (.module, none) :: parsed.program.openings.map Opening.frame := surveyed.frames
  -- The scope of the whole file comes first, and all others are opened inside one.
  have frame (scope : ScopeId) (data : Scope) (found : tree.scopes[scope]? = some data) :
      (data.parent = none ↔ scope = ScopeTree.root)
        ∧ (data.parent = none → data.kind.ownsVars = true) := by
    have same : tree.frames[scope]? = some (data.kind, data.parent) := by
      simp [ScopeTree.frames, found]
    rw [frames] at same
    cases scope with
    | zero =>
      obtain ⟨isModule, isOutermost⟩ : ScopeKind.module = data.kind ∧ none = data.parent := by
        simpa using same
      exact ⟨iff_of_true isOutermost.symm rfl, fun _ => by rw [← isModule]; rfl⟩
    | succ index =>
      obtain ⟨one, -, isFrame⟩ := by simpa using same
      have isAround : some one.around = data.parent := congrArg Prod.snd isFrame
      simp [← isAround, ScopeTree.root]
  refine ⟨tree, isTree, frames, fun scope data found => (frame scope data found).1, sound, ?_, ?_,
    ?_, ?_, ?_, apart⟩
  · exact fun scope inside name => resolvesWithin_iff sound inside
  · exact fun scope inside => nearestOwner_varScopeWithin? sound
      (fun scope data found => (frame scope data found).2) inside inside
  · -- Before the walk nothing is bound.
    have empty : ({} : ScopeTree).Recorded := by
      intro scope mem name declared
      obtain rfl := List.mem_singleton.mp (Array.mem_def.mp mem)
      cases declared
    intro name declares
    obtain ⟨scope, inside, binds⟩ := Array.any_eq_true'.mp declares
    have known := surveyed.recorded empty scope inside name
      (by simpa [NameSet.contains] using binds)
    simpa [isUsed, NameSet.contains] using known
  · intro name
    rw [isUsed, NameSet.contains, List.contains_iff_mem, surveyed.names]
    simp
  · intro index one found
    have search : (placesFrom 1 parsed.program.openings).find?
        (fun (span, kind, _) => span == one.span && kind == one.kind)
          = some (one.span, one.kind, 1 + index) := find?_placesFrom apart found
    have places : tree.places = placesFrom 1 parsed.program.openings ++ [] := surveyed.places
    rw [scopeAt?, places, List.append_nil, search, Nat.add_comm]
    rfl

/-- A handler in a loop, and a class with a static block in a switch. -/
theorem scopes_complete_nested :
    let source := "for (;;) try \x7b\x7d catch (e) \x7b switch (e) \x7b case f: (class \x7b"
      ++ " static \x7b e => (e) \x7d \x7d); \x7d \x7d"
    let openings : List Opening :=
      [⟨⟨0, 85⟩, .block, 0⟩, ⟨⟨13, 15⟩, .block, 1⟩, ⟨⟨26, 85⟩, .block, 1⟩, ⟨⟨28, 83⟩, .block, 3⟩,
        ⟨⟨50, 79⟩, .classBody, 4⟩, ⟨⟨65, 77⟩, .function, 5⟩, ⟨⟨67, 75⟩, .function, 6⟩]
    ∃ parsed, parse source = .ok parsed ∧ parsed.program.openings = openings
      ∧ ∃ tree, parsed.program.scopes? = some tree ∧ tree.Describes parsed.program := by
  intro source openings
  have reads : readsTo source (fun parsed => decide (parsed.program.openings = openings)) = true :=
    by decide +kernel
  obtain ⟨parsed, read, opens⟩ := exists_of_readsTo reads
  exact ⟨parsed, read, of_decide_eq_true opens, scopes_complete read⟩

end Downlevel
