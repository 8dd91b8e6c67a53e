/-! Editions of the language, in the order in which they were published, and the features that an
environment may lack. -/

namespace Downlevel

/-- An edition of the language. -/
inductive Edition
  | es5
  | es2015
  | es2016
  | es2017
  | es2018
  | es2019
  | es2020
  | es2021
  | es2022
  /-- Everything that is known, also what no edition has yet. -/
  | esNext
deriving DecidableEq, Inhabited

namespace Edition

/-- All editions, the oldest first. -/
def all : List Edition :=
  [.es5, .es2015, .es2016, .es2017, .es2018, .es2019, .es2020, .es2021, .es2022, .esNext]

/-- The name an edition is shown as. -/
def name : Edition → String
  | .es5 => "es5"
  | .es2015 => "es2015"
  | .es2016 => "es2016"
  | .es2017 => "es2017"
  | .es2018 => "es2018"
  | .es2019 => "es2019"
  | .es2020 => "es2020"
  | .es2021 => "es2021"
  | .es2022 => "es2022"
  | .esNext => "esnext"

/-- The number of editions before this one. -/
def rank : Edition → Nat
  | .es5 => 0
  | .es2015 => 1
  | .es2016 => 2
  | .es2017 => 3
  | .es2018 => 4
  | .es2019 => 5
  | .es2020 => 6
  | .es2021 => 7
  | .es2022 => 8
  | .esNext => 9

/-- The edition with the exact name; the sixth edition has two names. -/
def ofName? (name : String) : Option Edition :=
  if name = "es6" then some .es2015 else all.find? (·.name = name)

/-- The edition that a user means. Editions go by their year or their number, in any case, and the
first two letters may be left out. -/
def ofText? (text : String) : Option Edition :=
  let lower := text.toList.map Char.toLower
  let digits := match lower with
    | 'e' :: 's' :: rest => rest
    | other => other
  match String.ofList digits with
  | "5" => some .es5
  | "6" | "2015" => some .es2015
  | "7" | "2016" => some .es2016
  | "8" | "2017" => some .es2017
  | "9" | "2018" => some .es2018
  | "10" | "2019" => some .es2019
  | "11" | "2020" => some .es2020
  | "12" | "2021" => some .es2021
  | "13" | "2022" => some .es2022
  | "next" => some .esNext
  | _ => none

end Edition

/-- A feature of the language with a name of its own. -/
inductive Feature
  | arrow
  | asyncAwait
  | asyncGenerator
  | bigint
  | classes
  | classField
  | classPrivateAccessor
  | classPrivateBrandCheck
  | classPrivateField
  | classPrivateMethod
  | classPrivateStaticAccessor
  | classPrivateStaticField
  | classPrivateStaticMethod
  | classStaticBlock
  | classStaticField
  | constAndLet
  | decorator
  | defaultArgument
  | destructuring
  | exponentOperator
  | exportStarAs
  | forAwait
  | forOf
  | generator
  | logicalAssignment
  | nullishCoalescing
  | objectRestSpread
  | optionalCatchBinding
  | optionalChain
  | restArgument
  | templateLiteral
  | topLevelAwait
deriving DecidableEq

namespace Feature

/-- All features in the order of their names. -/
def all : List Feature :=
  [.arrow, .asyncAwait, .asyncGenerator, .bigint, .classes, .classField, .classPrivateAccessor,
    .classPrivateBrandCheck, .classPrivateField, .classPrivateMethod,
    .classPrivateStaticAccessor, .classPrivateStaticField, .classPrivateStaticMethod,
    .classStaticBlock, .classStaticField, .constAndLet, .decorator, .defaultArgument,
    .destructuring, .exponentOperator, .exportStarAs, .forAwait, .forOf, .generator,
    .logicalAssignment, .nullishCoalescing, .objectRestSpread, .optionalCatchBinding,
    .optionalChain, .restArgument, .templateLiteral, .topLevelAwait]

/-- The name a feature goes by. -/
def name : Feature → String
  | .arrow => "arrow"
  | .asyncAwait => "async-await"
  | .asyncGenerator => "async-generator"
  | .bigint => "bigint"
  | .classes => "class"
  | .classField => "class-field"
  | .classPrivateAccessor => "class-private-accessor"
  | .classPrivateBrandCheck => "class-private-brand-check"
  | .classPrivateField => "class-private-field"
  | .classPrivateMethod => "class-private-method"
  | .classPrivateStaticAccessor => "class-private-static-accessor"
  | .classPrivateStaticField => "class-private-static-field"
  | .classPrivateStaticMethod => "class-private-static-method"
  | .classStaticBlock => "class-static-blocks"
  | .classStaticField => "class-static-field"
  | .constAndLet => "const-and-let"
  | .decorator => "decorators"
  | .defaultArgument => "default-argument"
  | .destructuring => "destructuring"
  | .exponentOperator => "exponent-operator"
  | .exportStarAs => "export-star-as"
  | .forAwait => "for-await"
  | .forOf => "for-of"
  | .generator => "generator"
  | .logicalAssignment => "logical-assignment"
  | .nullishCoalescing => "nullish-coalescing"
  | .objectRestSpread => "object-rest-spread"
  | .optionalCatchBinding => "optional-catch-binding"
  | .optionalChain => "optional-chain"
  | .restArgument => "rest-argument"
  | .templateLiteral => "template-literal"
  | .topLevelAwait => "top-level-await"

/-- The first edition that has the feature. -/
def edition : Feature → Edition
  | .arrow | .classes | .constAndLet | .defaultArgument | .destructuring | .forOf | .generator
  | .restArgument | .templateLiteral => .es2015
  | .exponentOperator => .es2016
  | .asyncAwait => .es2017
  | .asyncGenerator | .forAwait | .objectRestSpread => .es2018
  | .optionalCatchBinding => .es2019
  | .bigint | .exportStarAs | .nullishCoalescing | .optionalChain => .es2020
  | .logicalAssignment => .es2021
  | .classField | .classPrivateAccessor | .classPrivateBrandCheck | .classPrivateField
  | .classPrivateMethod | .classPrivateStaticAccessor | .classPrivateStaticField
  | .classPrivateStaticMethod | .classStaticBlock | .classStaticField | .topLevelAwait => .es2022
  | .decorator => .esNext

/-- The feature of the given name. -/
def ofName? (name : String) : Option Feature :=
  all.find? (·.name = name)

end Feature

end Downlevel
