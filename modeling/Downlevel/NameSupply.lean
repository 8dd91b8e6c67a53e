/-! Names that are made up: the first numbered form of a name that is free, and an endless supply of
short names. The latter are `a` to `z`, `A` to `Z`, `_`, `$`, and then longer ones in the same order,
the first character running fastest. -/

namespace Downlevel

/-- The first numbered form of a name that is not taken. There are more forms than tries, so that
the last one is free when none before it was. -/
def numberedName (taken : List String) (base : String) : (tries : Nat) → (number : Nat) → String
  | 0, number => base ++ toString number
  | tries + 1, number =>
    let candidate := base ++ toString number
    if taken.contains candidate then numberedName taken base tries (number + 1) else candidate

/-- The name itself if it is free, and otherwise its first numbered form that is. -/
def freshName (taken : List String) (base : String) : String :=
  if taken.contains base then numberedName taken base taken.length 2 else base

namespace ShortName

/-- What a name may start with. -/
def heads : List Char :=
  "abcdefghijklmnopqrstuvwxyzABCDEFGHIJKLMNOPQRSTUVWXYZ_$".toList

/-- What a name may go on with. -/
def tails : List Char :=
  heads ++ "0123456789".toList

/-- The characters behind the first one; nothing is left of the index after as many of them. -/
def tail : (fuel : Nat) → (index : Nat) → List Char
  | _, 0 => []
  | 0, _ + 1 => []
  | fuel + 1, index + 1 =>
    (tails[index % tails.length]?).toList ++ tail fuel (index / tails.length)

end ShortName

/-- The short name with the given index. -/
def shortName (index : Nat) : String :=
  let rest := index / ShortName.heads.length
  String.ofList
    ((ShortName.heads[index % ShortName.heads.length]?).toList ++ ShortName.tail rest rest)

end Downlevel
