import ScriptCore.Execution.Basic

/-!
# ScriptCore.Object.Call

**Calling** objects: through proxies, into native bodies, built-in functions and functions of the
host.

Design points:

* A chain of proxies longer than the heap has objects leads back into itself, so `Heap.behind` needs
  no bound from outside. Nothing stands behind such a chain: it cannot be called, and whether it could
  be has no answer either.
* `invoke` is parametric in how an argument becomes a property name, because that conversion itself
  looks up and calls methods. Those are called without arguments, so the knot is tied once, in
  `Object.Primitive`.
-/

namespace ScriptCore

/-- What stands behind a chain of proxies. -/
inductive Behind where
  /-- An object that is no proxy. -/
  | object (o : ObjectId)
  /-- A proxy without a target. -/
  | revoked
  /-- Nothing: the chain leads back into itself. -/
  | endless

namespace Heap

/-- Follows a chain of proxies for a number of links. -/
def behindWithin (h : Heap) : Nat → ObjectId → Behind
  | 0, _ => .endless
  | n + 1, o => match h.payload o with
    | .proxy (some target) _ => h.behindWithin n target
    | .proxy none _ => .revoked
    | _ => .object o

/-- What stands behind an object that may be a proxy. -/
def behind (h : Heap) (o : ObjectId) : Behind := h.behindWithin (h.objects.size + 1) o

/-- Whether the object is a function or a proxy of one, if its chain of proxies ends. -/
def isCallable (h : Heap) (o : ObjectId) : Option Bool :=
  match h.behind o with
  | .object f => match h.payload f with
    | .function _ => some true
    | _ => some false
  | .revoked => some false
  | .endless => none

/-- The name of the type of a value, if what stands behind it can be told. -/
def typeOf (h : Heap) : Value → Option String
  | .undefined => some "undefined"
  | .null => some "object"
  | .boolean _ => some "boolean"
  | .string _ => some "string"
  | .symbol _ => some "symbol"
  | .object o => (h.isCallable o).map fun callable => if callable then "function" else "object"
  | _ => some "number"

end Heap

variable {σ : Type}

/-- Runs the initializer of a lazy object, unless it has run or is running. While it runs, the object
is an empty placeholder; then what it made takes the object's place. -/
def materialize (env : Embedding σ) (o : ObjectId) : Exec σ Unit := do
  match ← Exec.asks (·.payload o) with
  | .lazy (some number) =>
    Exec.modifyHeap (·.updatePayload o fun _ => .lazy none)
    let made ← env.makeLazy number
    Exec.modifyHeap (·.updateObject o fun _ => made)
  | _ => pure ()

namespace Heap

/-- The stored slot or computed element that makes a key an own property of an object, as it is
without running anything. Elements of the host are wrapped on the way. -/
def computed? (h : Heap) (o : ObjectId) (key : Text) : Option Value × Heap :=
  match h.payload o with
  | .array elements => match key.arrayIndex? with
    | some i => (elements[i]?, h)
    | none => (if key.isText "length" then some (.ofNat elements.size) else none, h)
  | .hostSlice s prototypes => match key.arrayIndex? with
    | some i => match (h.hostSlice s)[i]? with
      | some v => let (w, h) := h.wrap prototypes v; (some w, h)
      | none => (none, h)
    | none => (if key.isText "length" then some (.ofNat (h.hostSlice s).size) else none, h)
  | .hostMap m prototypes => match (h.hostMap m)[key.toString]? with
    | some v => let (w, h) := h.wrap prototypes v; (some w, h)
    | none => (none, h)
  | .hostData (.error message) =>
    (if key.isText "message" then some (.string (.imported message)) else none, h)
  | .boxed (.string t) => match key.arrayIndex? with
    | some i => (if i < t.length then some (.string (t.slice i (i + 1))) else none, h)
    | none => (if key.isText "length" then some (.ofNat t.length) else none, h)
  | _ => (none, h)

/-- The own property of an object under a key. A computed one hides a stored one. -/
def ownSlot? (h : Heap) (o : ObjectId) (key : Text) : Option Slot × Heap :=
  match h.computed? o key with
  | (some v, h) => (some (.data v (if key.isText "length" then .length else .default)), h)
  | (none, h) => ((h.object o).properties.get? key, h)

/-- The names of the computed properties of an object, in order. -/
def computedNames (h : Heap) (o : ObjectId) : List Text :=
  let indices (n : Nat) : List Text := (List.range n).map .ofIndex ++ [.ofString "length"]
  match h.payload o with
  | .array elements => indices elements.size
  | .hostSlice s _ => indices (h.hostSlice s).size
  | .hostMap m _ => (h.hostMap m).keys.map .ofString
  | .hostData (.error _) => [.ofString "message"]
  | .boxed (.string t) => indices t.length
  | _ => []

/-- The names of the own properties of an object: the computed ones, then the stored ones. A name
that is both is listed twice. -/
def ownNames (h : Heap) (o : ObjectId) : List Text :=
  h.computedNames o ++ (h.object o).properties.names.toList

end Heap

/-- Runs a function of the host, given a way to call objects. A failure is a text. -/
def callHostWith (env : Embedding σ) (callObject : ObjectId → Value → List Value → Throws σ Value)
    (f : HostFunctionId) (args : List HostValue) : ExceptT String (Exec σ) HostValue := do
  match ← Exec.asks (·.hostFunction f) with
  | .embedded number => env.callHost number args
  | .exported o =>
    let args ← Exec.onHeap (·.wrapAll .none args)
    match ← (callObject o .undefined args).run with
    | .ok v => Exec.asks (·.unwrap v)
    | .error thrown => throw thrown.text

/-- Runs a built-in function, given the property name that its first argument stands for. -/
def callBuiltin (env : Embedding σ) (keyOf : Value → Exec σ Text) (b : Builtin) (this : Value)
    (args : List Value) : Throws σ Value := do
  match b with
  | .nothing => return .undefined
  | .valueOf => if this.isNullish then throw .nullishReceiver else return this
  | .hasOwnProperty =>
    let key ← keyOf (args.headD .undefined)
    match this with
    | .object o =>
      materialize env o
      let slot ← Exec.onHeap (·.ownSlot? o key)
      return .boolean slot.isSome
    | _ => if this.isNullish then throw .nullishReceiver else return .boolean false

/-- Calls an object, following at most a number of links through functions of the host that call
objects in turn. -/
def invoke (env : Embedding σ) (keyOf : Value → Exec σ Text) :
    Nat → ObjectId → Value → List Value → Throws σ Value
  | 0, _, _, _ => Exec.endless
  | n + 1, o, this, args => do
    match ← Exec.asks (·.behind o) with
    | .endless => Exec.endless
    | .revoked => throw .revokedProxy
    | .object f => match ← Exec.asks (·.payload f) with
      | .function fn => match fn.code with
        | none => return .undefined
        | some (.embedded number) => env.callNative number this args
        | some (.builtin b) => callBuiltin env keyOf b this args
        | some (.host g prototypes) =>
          let args ← Exec.asks fun h => args.map h.unwrap
          match ← (callHostWith env (invoke env keyOf n) g args).run with
          | .ok v => Exec.onHeap (·.wrap prototypes v)
          | .error text => throw (.hostFailure text)
      | _ => throw .notAFunction

/-- Calls an object without arguments. Nothing is then converted into a property name but a missing
argument. -/
def callBare (env : Embedding σ) (o : ObjectId) (this : Value) : Throws σ Value :=
  invoke env (fun v => pure v.primitiveText) env.patience o this []

end ScriptCore
