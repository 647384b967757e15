import Weft.Symbol.Scope
import Weft.Type.Check

/-!
# Semantic problems

What the analysis of a program can complain about, and the text of each complaint.
-/

namespace Weft.Analysis

/-- A semantic problem. Types and qualified names are given by their text. -/
inductive Problem where
  -- declarations
  | redefined (e : AlreadyDefined)
  | virtualFunction
  | staticMethod
  | globalCount
  | globalUntyped (name : String)
  | invalidImport (path why : String)
  | importsItself (name : String)
  | importedTwice (name : String)
  | unresolvedType (e : ResolveError)
  | voidType
  | paramRedefined (name : String)
  | refDefault (name : String)
  | defaultMissing (name : String)
  | tooManyParams
  | tooManyDefaults
  | selfInheritance
  | superclassNotFirst (name : String)
  | classCycle (base derived : String)
  | implementedTwice (name : String)
  | notInheritable (name : String)
  | interfaceExtendsOther (name : String)
  | interfaceCycle (base derived : String)
  | inheritedTwice (name : String)
  | fieldInherited (name : String)
  | overridesNothing (name : String)
  | hidesField (name : String)
  | hidesMethod (name : String)
  | baseNotVirtual (name : String)
  | overrideDiffers (name base own : String)
  | conformance (e : ConformanceError)
  -- expressions
  | operator (e : OperatorError)
  | badCast (src dst : String)
  | asValueType (type : String)
  | noField (cls name : String)
  | fieldTwice (name : String)
  | initsWithoutClass
  | notCreatable (type : String)
  | badMapEntry
  | incompatible (dst src : String)
  | unusable (type : String)
  -- chains
  | notValue (name : String)
  | badTarget
  | unresolved (name : String)
  | misplaced (name : String)
  | thisOutsideMethod
  | baseOutsideMethod
  | noBaseClass (cls : String)
  | baseAlone
  | noMember (owner name : String)
  | readOnly (name : String)
  | methodNotCalled (name : String)
  | noItem (enum name : String)
  | methodWithoutInstance (name : String)
  | fieldWithoutInstance (name : String)
  | noClassMember (cls name : String)
  | badIndex (type : String)
  | notIndexable (type : String)
  | notFunction (name : String)
  | notCallable (type : String)
  -- arguments
  | noParam (name : String)
  | positionalAfterNamed
  | tooManyArguments (expected : Nat)
  | passedTwice (name : String)
  | argumentLimit
  | argumentMissing (name : String)
  | refMissing
  | refUnexpected
  | refNotLocal
  | coroWithoutYield (name : String)
  | yieldWithoutCoro (name : String)
  -- functions and statements
  | thisParam
  | tooManyLocals (func : String)
  | returnMissing
  | yieldMissing (func : String)
  | notInLoop (word : String)
  | leavesDefer (word : String)
  | badCondition (type : String)
  | yieldOutsideCoro
  | yieldNeedsCall
  | notStatement
  | returnInDefer
  | returnValueMissing
  | returnValueUnexpected
  | returnCount (expected got : Nat)
  | untypedVariable (name : String)
  | inferFromNull
  | inferFrom (type : String)
  | valueCount (expected : Nat) (got : String)
  | notInferred (name : String)
  | variableRedefined (name : String)
  | compoundWithCall
  | compoundTargets
  | targetNotVariable

/-- The text of a problem. -/
def Problem.message : Problem → String
  | redefined e => e.message
  | virtualFunction => "only methods can be virtual or override"
  | staticMethod => "static methods are not supported"
  | globalCount => "global declarations must declare exactly one variable"
  | globalUntyped n => s!"global variable '{n}' needs an explicit type"
  | invalidImport p why => s!"invalid import '{p}': {why}"
  | importsItself n => s!"module '{n}' imports itself"
  | importedTwice n => s!"module '{n}' is already imported"
  | unresolvedType e => e.message
  | voidType => "void is not allowed here"
  | paramRedefined n => s!"parameter '{n}' is already defined"
  | refDefault n => s!"ref parameter '{n}' can't have a default value"
  | defaultMissing n => s!"missing default value for parameter '{n}'"
  | tooManyParams => "too many parameters"
  | tooManyDefaults => "too many default parameters"
  | selfInheritance => "self inheritance is not allowed"
  | superclassNotFirst n => s!"superclass '{n}' must be listed first"
  | classCycle a b => s!"inheritance cycle: '{a}' derives from '{b}'"
  | implementedTwice n => s!"interface '{n}' is implemented more than once"
  | notInheritable n => s!"'{n}' can't be inherited from"
  | interfaceExtendsOther n => s!"interface '{n}' can only extend interfaces"
  | interfaceCycle a b => s!"inheritance cycle: '{a}' extends '{b}'"
  | inheritedTwice n => s!"interface '{n}' is inherited more than once"
  | fieldInherited n => s!"field '{n}' is already declared by a base class"
  | overridesNothing n => s!"method '{n}' overrides nothing"
  | hidesField n => s!"method '{n}' hides a base class field"
  | hidesMethod n => s!"method '{n}' hides a base class method, mark it override"
  | baseNotVirtual n => s!"base method '{n}' is not virtual"
  | overrideDiffers n base own => s!"method '{n}' overrides {base} with a different signature {own}"
  | conformance e => e.message
  | operator e => e.message
  | badCast src dst => s!"incompatible types for casting: '{src}' to '{dst}'"
  | asValueType t => s!"'as' needs a reference type, got '{t}'"
  | noField c n => s!"class '{c}' has no field '{n}'"
  | fieldTwice n => s!"field '{n}' is initialized twice"
  | initsWithoutClass => "field initializers need a class type"
  | notCreatable t => s!"can't create an instance of '{t}'"
  | badMapEntry => "map literal entries must be [key, value]"
  | incompatible dst src => s!"incompatible types: '{dst}' and '{src}'"
  | unusable t => s!"expression of type '{t}' can't be used as a value"
  | notValue n => s!"'{n}' is not a value"
  | badTarget => "invalid assignment target"
  | unresolved n => s!"symbol '{n}' not resolved"
  | misplaced n => s!"'{n}' can't be used here"
  | thisOutsideMethod => "'this' is only available in methods"
  | baseOutsideMethod => "'base' is only available in methods"
  | noBaseClass c => s!"class '{c}' has no base class"
  | baseAlone => "'base' must be followed by a member"
  | noMember o n => s!"'{o}' has no member '{n}'"
  | readOnly n => s!"'{n}' is read-only"
  | methodNotCalled n => s!"method '{n}' must be called"
  | noItem e n => s!"enum '{e}' has no item '{n}'"
  | methodWithoutInstance n => s!"calling instance method '{n}' without an instance"
  | fieldWithoutInstance n => s!"accessing field '{n}' without an instance"
  | noClassMember c n => s!"class '{c}' has no member '{n}'"
  | badIndex t => s!"array index must be int, got '{t}'"
  | notIndexable t => s!"'{t}' can't be indexed"
  | notFunction n => s!"'{n}' is not a function"
  | notCallable t => s!"'{t}' is not callable"
  | noParam n => s!"no parameter named '{n}'"
  | positionalAfterNamed => "positional argument after a named argument"
  | tooManyArguments n => s!"too many arguments, expected {n}"
  | passedTwice n => s!"argument '{n}' is already passed"
  | argumentLimit => "too many arguments"
  | argumentMissing n => s!"missing argument '{n}'"
  | refMissing => "argument must be passed with 'ref'"
  | refUnexpected => "argument is not a 'ref' parameter"
  | refNotLocal => "only local variables can be passed by 'ref'"
  | coroWithoutYield n => s!"coro function '{n}' must be called with yield"
  | yieldWithoutCoro n => s!"'{n}' is not a coro function, it can't be yielded"
  | thisParam => "'this' can't be used as a parameter name"
  | tooManyLocals n => s!"too many local variables in '{n}'"
  | returnMissing => "matching return statement not found"
  | yieldMissing n => s!"coro function '{n}' has no yield"
  | notInLoop w => s!"'{w}' is not within a loop"
  | leavesDefer w => s!"'{w}' can't leave a defer block"
  | badCondition t => s!"condition must be bool, got '{t}'"
  | yieldOutsideCoro => "yield is only allowed in coro functions"
  | yieldNeedsCall => "yield expects a coro function call"
  | notStatement => "expression is not a statement"
  | returnInDefer => "return is not allowed in a defer block"
  | returnValueMissing => "return value is missing"
  | returnValueUnexpected => "function doesn't return a value"
  | returnCount n m => s!"function returns {n} values, got {m}"
  | untypedVariable n => s!"variable '{n}' needs a type or an initial value"
  | inferFromNull => "can't infer a type from null"
  | inferFrom t => s!"can't infer a type from '{t}'"
  | valueCount n t => s!"expected {n} values, got '{t}'"
  | notInferred n => s!"can't infer the type of '{n}'"
  | variableRedefined n => s!"variable '{n}' is already defined"
  | compoundWithCall => "compound assignment target can't contain a call; store it in a variable first"
  | compoundTargets => "compound assignment needs a single target"
  | targetNotVariable => "multiple assignment targets must be variables"

end Weft.Analysis
