import Downlevel.Lowering.Class.Body
import Downlevel.Proofs.MadeUpNames
import Downlevel.Proofs.Scoping.Uses

/-! What a tree needs around it: the names that it mentions have to be bound there, and every name
that it writes has to be one that can be written. Made-up names can be, whatever they are made from,
and no placeholder can. -/

namespace Downlevel

/-- A name that a program can be written with. No source has one that starts with the character of
the placeholders; only the name of the file may bring it in. -/
def Writable (stem name : String) : Prop :=
  name ≠ "" ∧ (name.toList.head? = some '\x00' → (stem ++ "_default").toList <+: name.toList)

/-- The names that are bound around a tree. -/
abbrev World :=
  String → Prop

/-- The names around a part of a tree that binds some names itself. -/
def World.plus (world : World) (stem : String) (names : List String) : World :=
  fun name => world name ∨ name ∈ names ∧ Writable stem name

/-- A use that makes sense where the names of the world are bound. -/
def MakesSense (stem : String) (world : World) : Use → Prop
  | .free name => world name
  | .bound name => world name ∨ Writable stem name
  | .fixed name => Writable stem name
  | .stray => False

/-- All the uses make sense where the names of the world are bound. -/
def Meets (stem : String) (world : World) (uses : List Use) : Prop :=
  ∀ use ∈ uses, MakesSense stem world use

section

variable {stem : String} {world wider : World} {names more : List String} {uses others : List Use}
  {name : String}

/-- What is bound around a tree is bound around its parts. -/
theorem World.plus_of_world (holds : world name) : world.plus stem names name :=
  .inl holds

/-- What a tree binds is bound around its parts. -/
theorem World.plus_of_mem (isBound : name ∈ names) (writable : Writable stem name) :
    world.plus stem names name :=
  .inr ⟨isBound, writable⟩

/-- Binding no names changes no world. -/
@[simp] theorem World.plus_nil : world.plus stem [] = world := by
  funext name
  simp [World.plus]

/-- Names may be bound one list after another. -/
@[simp] theorem World.plus_append :
    (world.plus stem names).plus stem more = world.plus stem (names ++ more) := by
  funext name
  simp only [World.plus, List.mem_append, eq_iff_iff]
  grind

/-- Binding more names, in a world of more names, only adds to what is bound. -/
theorem World.plus_mono (grows : ∀ name, world name → wider name)
    (included : ∀ name ∈ names, name ∈ more) :
    ∀ name, world.plus stem names name → wider.plus stem more name := by
  rintro name (around | ⟨isBound, writable⟩)
  · exact .inl (grows name around)
  · exact .inr ⟨included name isBound, writable⟩

/-- Where nothing is used, all makes sense. -/
@[simp] theorem meets_nil : Meets stem world [] :=
  nofun

/-- The first use makes sense, and so do the others. -/
@[simp] theorem meets_cons {use : Use} :
    Meets stem world (use :: others) ↔ MakesSense stem world use ∧ Meets stem world others :=
  List.forall_mem_cons

/-- The uses of two parts make sense if those of each do. -/
@[simp] theorem meets_append :
    Meets stem world (uses ++ others) ↔ Meets stem world uses ∧ Meets stem world others :=
  List.forall_mem_append

/-- The uses of many parts make sense if those of each do. -/
@[simp] theorem meets_flatMap {α : Type} {items : List α} {usesOf : α → List Use} :
    Meets stem world (items.flatMap usesOf) ↔ ∀ item ∈ items, Meets stem world (usesOf item) := by
  simp only [Meets, List.mem_flatMap]
  exact ⟨fun holds item mem use inItem => holds use ⟨item, mem, inItem⟩,
    fun holds use ⟨item, mem, inItem⟩ => holds item mem use inItem⟩

/-- A name that is used has to be bound. -/
@[simp] theorem makesSense_free : MakesSense stem world (.free name) ↔ world name :=
  .rfl

/-- A name that stays as it is has to be one that can be written. -/
@[simp] theorem makesSense_fixed : MakesSense stem world (.fixed name) ↔ Writable stem name :=
  .rfl

/-- A placeholder that is left over makes no sense. -/
@[simp] theorem makesSense_stray : ¬MakesSense stem world .stray :=
  id

/-- A name that may be absent makes sense if it can be written. -/
@[simp] theorem meets_nameUses {name : Option String} :
    Meets stem world (nameUses name) ↔ ∀ own ∈ name, Writable stem own := by
  cases name <;> simp [nameUses]

/-- A use makes sense in a tree that binds names if it does where those are bound. -/
theorem makesSense_hide {use : Use} :
    MakesSense stem world (use.hide names) ↔ MakesSense stem (world.plus stem names) use := by
  cases use with
  | free name =>
    by_cases isBound : name ∈ names <;> simp [Use.hide, MakesSense, World.plus, isBound]
  | bound name =>
    simp only [Use.hide, MakesSense, World.plus]
    grind
  | fixed name => exact .rfl
  | stray => exact .rfl

/-- A tree that binds names needs only the other ones around it. -/
@[simp] theorem meets_enclosed :
    Meets stem world (enclosed names uses) ↔ Meets stem (world.plus stem names) uses := by
  simp only [Meets, enclosed, List.forall_mem_map, makesSense_hide]

/-- What makes sense does so where more is bound. -/
theorem Meets.mono (meets : Meets stem world uses) (grows : ∀ name, world name → wider name) :
    Meets stem wider uses := by
  intro use mem
  have holds := meets use mem
  cases use with
  | free name => exact grows name holds
  | bound name => exact holds.imp_left (grows name)
  | fixed name => exact holds
  | stray => exact holds

/-- What makes sense does so in a tree that binds names. -/
theorem Meets.plus (meets : Meets stem world uses) : Meets stem (world.plus stem names) uses :=
  meets.mono fun _ => .inl

end

open Lowering

variable {stem name text : String} {c : Char}

/-- A name that starts with any character but that of the placeholders can be written. -/
theorem writable_of_head (head : name.toList.head? = some c) (other : c ≠ '\x00') :
    Writable stem name := by
  constructor
  · rintro rfl
    cases head
  · intro starts
    rw [head] at starts
    exact absurd (Option.some.inj starts) other

/-- A name without the character of the placeholders can be written, once something is behind it. -/
theorem writable_append_of_head (head : name.toList.head? ≠ some '\x00') (start : c ≠ '\x00')
    (behind : text.toList.head? = some c) : Writable stem (name ++ text) := by
  cases letters : name.toList with
  | nil =>
    apply writable_of_head _ start
    simp [letters, behind]
  | cons first rest =>
    rw [letters, List.head?_cons] at head
    apply writable_of_head (c := first) _ fun same => head (by rw [same])
    simp [letters]

/-- A name goes on as it started. -/
theorem Writable.append (writable : Writable stem name) (more : String) : Writable stem (name ++ more) := by
  -- The text behind the name changes neither that it is a name nor what it starts with.
  obtain ⟨notEmpty, starts⟩ := writable
  constructor
  · intro isEmpty
    have letters := congrArg String.toList isEmpty
    simp only [String.toList_append, String.toList_empty, List.append_eq_nil_iff] at letters
    exact notEmpty (String.toList_injective letters.1)
  · intro head
    cases letters : name.toList with
    | nil => exact absurd (String.toList_injective letters) notEmpty
    | cons first rest =>
      have front := starts (by simpa [letters] using head)
      rw [String.toList_append (t := more)]
      exact front.trans (List.prefix_append ..)

/-- What can stand as an identifier can be written. -/
theorem writable_of_isIdentifierName (isName : Text.isIdentifierName name = true) :
    Writable stem name := by
  rw [Text.isIdentifierName] at isName
  cases letters : name.toList with
  | nil => simp [letters] at isName
  | cons first rest =>
    simp only [letters, Bool.and_eq_true] at isName
    apply writable_of_head (c := first) (by simp [letters])
    rintro rfl
    exact absurd isName.1 (by decide)

/-- The name of the default class of a file can be written. -/
theorem writable_default (stem : String) : Writable stem (stem ++ "_default") := by
  refine ⟨fun isEmpty => ?_, fun _ => List.prefix_rfl⟩
  have letters := congrArg String.toList isEmpty
  simp at letters

/-- A fresh name can be written if the one that it is made from can. -/
theorem writable_freshName {taken : List String} (writable : Writable stem name) :
    Writable stem (freshName taken name) := by
  obtain ⟨rest, spelled⟩ := freshName_prefix taken name
  have same : freshName taken name = name ++ String.ofList rest := by
    apply String.toList_injective
    simp [spelled]
  rw [same]
  exact writable.append _

/-- The placeholder of a class cannot be written. -/
theorem not_writable_placeholder (depth : Nat) : ¬Writable stem (classPlaceholder depth) := by
  rintro ⟨-, starts⟩
  have front := starts (by simp [classPlaceholder])
  -- The name of the file is followed by a character that no placeholder has.
  have mem : '_' ∈ (classPlaceholder depth).toList := front.subset (by simp)
  have digits (c : Char) (inNumber : c ∈ (toString depth).toList) : c.isDigit = true := by
    rw [Nat.toString_eq_ofList_toDigits, String.toList_ofList] at inNumber
    exact Nat.isDigit_of_mem_toDigits (by decide) (by decide) inNumber
  rw [classPlaceholder, String.toList_append, List.mem_append] at mem
  rcases mem with inText | inNumber
  · revert inText
    decide
  · exact absurd (digits '_' inNumber) (by decide)

/-- Numbers are written without the character of the placeholders. -/
theorem noNull_toString (number : Nat) : '\x00' ∉ (toString number).toList := by
  intro mem
  rw [Nat.toString_eq_ofList_toDigits, String.toList_ofList] at mem
  exact absurd (Nat.isDigit_of_mem_toDigits (by decide) (by decide) mem) (by decide)

/-- A fresh name has no character of the placeholders if the one that it is made from has none. -/
theorem noNull_freshName {taken : List String} (without : '\x00' ∉ name.toList) :
    '\x00' ∉ (freshName taken name).toList := by
  rcases freshName_cases taken name with same | ⟨number, same⟩
  · rwa [same]
  · rw [same, String.toList_append, List.mem_append, not_or]
    exact ⟨without, noNull_toString number⟩

/-- Short names have no character of the placeholders. -/
theorem noNull_shortName (index : Nat) : '\x00' ∉ (shortName index).toList :=
  fun mem => absurd (ShortName.mem_tails mem) (by decide)

/-- What is behind the number signs of a private name does not look like a placeholder. -/
def PlainPrivate (name : String) : Prop :=
  (dropLeading '#' name).toList.head? ≠ some '\x00'

/-- A text without the character of the placeholders has none in any part of it. -/
theorem noNull_dropLeading (without : '\x00' ∉ name.toList) :
    '\x00' ∉ (dropLeading c name).toList := by
  rw [dropLeading, String.toList_ofList]
  exact fun mem => without ((List.dropWhile_sublist _).subset mem)

/-- A private name without the null character is plain. -/
theorem plainPrivate_of_noNull (without : '\x00' ∉ name.toList) : PlainPrivate name :=
  fun head => noNull_dropLeading without (List.mem_of_head? head)

/-- The field behind a private name, or behind any key, does not look like a placeholder. -/
theorem plainPrivate_backing (key : KeyName) (taken : List String) :
    PlainPrivate (freshName taken ("#" ++ backingBase key)) := by
  by_cases isPrivate : key.kind = .privateName
  · obtain ⟨rest, spelled⟩ := freshName_prefix taken ("#" ++ backingBase key)
    rw [PlainPrivate, dropLeading, spelled, String.toList_ofList]
    simp [backingBase, isPrivate]
  · apply plainPrivate_of_noNull
    apply noNull_freshName
    -- Every character that no name can have is replaced.
    have letters : '\x00' ∉ key.text.toList.map fun c =>
        if Text.isAlphanumeric c || c == '_' || c == '$' then c else '_' := by
      intro mem
      obtain ⟨c, -, same⟩ := List.mem_map.mp mem
      split at same
      · rename_i allowed
        rw [same] at allowed
        revert allowed
        decide
      · exact absurd same (by decide)
    rw [backingBase, if_neg isPrivate, String.toList_append, List.mem_append, not_or]
    refine ⟨by decide, ?_⟩
    dsimp only
    split
    · decide
    · split
      · rw [String.toList_append, List.mem_append, not_or]
        exact ⟨by decide, by rwa [String.toList_ofList]⟩
      · rw [String.toList_ofList]
        exact letters

end Downlevel
