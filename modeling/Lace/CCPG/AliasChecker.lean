import Lace.CCPG.Basic

/-!
# Call instructions and aliases

What the analyses ask about the LLVM call instruction behind a node: its arguments, whether two
arguments may alias, and which functions a constant argument contains. The alias relation is the
pointer analysis's and may be any relation on values.

## Main definitions

* `IRModule`: the instructions, constants and aliases that are read;
* `IRModule.isLockAlias`, `IRModule.completionAlias`: the two alias tests on nodes;
* `IRModule.collectFns`: the functions in a constant initializer.
-/

namespace Lace

/-- An `llvm::Value`, named by a number. -/
abbrev ValueId := ℕ

/-- What kind of value a value is, as far as it is looked into. -/
inductive ValueKind
  /-- `llvm::Function` with its name. -/
  | function (name : String)
  /-- `llvm::GlobalVariable` with its initializer, if it has one. -/
  | globalVariable (initializer : Option ValueId)
  /-- Any other `llvm::Constant`, with its operands. -/
  | constant (operands : List ValueId)
  /-- Not a constant. -/
  | other
  deriving DecidableEq, Repr

namespace ValueKind

/-- `dyn_cast<llvm::Constant>` succeeds. -/
def isConstant : ValueKind → Bool
  | .other => false
  | _ => true

/-- The operands of a constant. -/
def operands : ValueKind → List ValueId
  | .globalVariable init => init.toList
  | .constant ops => ops
  | _ => []

end ValueKind

/-- `llvm::CallInst`: a call, by its callee and arguments. -/
structure CallInst where
  /-- The name of `getCalledFunction`; an indirect call has none. -/
  calledFunction : Option String
  /-- The call's arguments. -/
  args : List ValueId
  deriving Repr

/-- The LLVM module as the analyses see it. -/
structure IRModule where
  /-- `CCPGNode::getLLVMCallInst`. -/
  callInst : NodeId → Option CallInst
  /-- The name of `CCPGNode::getCPGNode`, where there is one. -/
  cpgNodeName : NodeId → Option String
  /-- `PointerAnalysisInterface::areAliases`. -/
  areAliases : ValueId → ValueId → Bool
  /-- `llvm::Value::stripPointerCasts`. -/
  stripPointerCasts : ValueId → ValueId
  /-- The kind of a value. -/
  kind : ValueId → ValueKind

namespace IRModule

variable (M : IRModule)

/-- The name of a node, empty where there is none. -/
def nodeName (n : NodeId) : String := (M.cpgNodeName n).getD ""

/-- The first argument of the call at a node. -/
def firstArg (n : NodeId) : Option ValueId := (M.callInst n).bind (·.args.head?)

/-- `AliasChecker::isLockAlias`: the locks that two lock operations work on may alias. -/
def isLockAlias (n1 n2 : NodeId) : Bool :=
  match M.firstArg n1, M.firstArg n2 with
  | some lock1, some lock2 => M.areAliases lock1 lock2
  | _, _ => false

/-- `completionAlias`: the same question for the arguments of two call sites. -/
def completionAlias (G : CCPG) (a b : NodeId) : Bool :=
  G.isCallSite a && G.isCallSite b && M.isLockAlias a b

/-- `kMaxConstDepth`: how deep the operands of a constant are followed. -/
def kMaxConstDepth : ℕ := 8

/-- `kMaxOperands`: how many operands of a value are looked at. -/
def kMaxOperands : ℕ := 256

/-- `collectFns`: the names of the functions in a constant, given the constants seen so far. The
first argument is how many levels are left. -/
def collectFns : ℕ → ValueId → List ValueId × List String → List ValueId × List String
  | 0, _, acc => acc
  | fuel + 1, c, (visited, out) =>
      if c ∈ visited then (visited, out)
      else
        match M.kind (M.stripPointerCasts c) with
        | .function name => (c :: visited, out ++ [name])
        | kind =>
            ((kind.operands.take kMaxOperands).filter fun sub => (M.kind sub).isConstant).foldl
              (fun acc sub => collectFns fuel sub acc) (c :: visited, out)

/-- The functions that one call argument adds to the targets of a registration. -/
def argTargets (acc : List ValueId × List String) (v : ValueId) : List ValueId × List String :=
  match M.kind (M.stripPointerCasts v) with
  | .function name => (acc.1, acc.2 ++ [name])
  | .globalVariable none => acc
  | .globalVariable (some init) => M.collectFns (kMaxConstDepth + 1) init acc
  | .constant _ => M.collectFns (kMaxConstDepth + 1) (M.stripPointerCasts v) acc
  | .other => acc

/-- All callback targets of a call, each once. -/
def callTargets (call : CallInst) : List String :=
  (call.args.foldl M.argTargets ([], [])).2.eraseDups

end IRModule

end Lace
