import Bytemark.Field.Binding

/-!
# Plans of record codecs

A plan lists how the fields of a record are reached: directly, or by a getter and a setter. Getters and setters pair up
by *canonical name*, in which underscores and the case of ASCII letters do not count. `Plan.build` makes the codec: it
checks the names, orders the fields by name, and binds each of them.

Getters and setters are of the plain sort: a getter gives what is in one slot and a setter replaces it, and the slot's
name is all that the plan says of them. A getter that computes its value, or a setter that changes more than its slot,
has no place in a plan.
-/

set_option autoImplicit false

namespace Bytemark

/-- How an entry of a plan reaches its slot. -/
inductive Access
  | direct | getter | setter
  deriving DecidableEq, Repr

/-- An entry of a plan: a field's name, the slot it is kept in, and the type it has there. -/
structure PlanEntry where
  access : Access
  name : String
  slot : String
  type : FieldType
  deriving DecidableEq, Repr

namespace PlanEntry

/-- The name without underscores and in lower case, as far as ASCII letters go. -/
def canonical (entry : PlanEntry) : String :=
  String.ofList ((entry.name.toList.filter fun char => char != '_').map Char.toLower)

/-- The first entry of the same canonical name. -/
def partner? (entry : PlanEntry) (entries : List PlanEntry) : Option PlanEntry :=
  entries.find? fun other => other.canonical = entry.canonical

end PlanEntry

/-- A field and the setter it is paired with; a direct field has none. -/
structure PlannedField where
  field : PlanEntry
  setter : Option PlanEntry
  deriving DecidableEq, Repr

/-- A plan for a codec of the record type `type`. Without `fresh` slots the codec would have nothing to read into. -/
structure Plan where
  type : String
  marker : Marker
  fresh : Option (List (String × Value))
  entries : List PlanEntry

namespace Plan

/-- Refuses two setters of one canonical name. -/
def checkSetters : (seen : List PlanEntry) → List PlanEntry → Except PlanFault Unit
  | _, [] => .ok ()
  | seen, setter :: setters =>
    match setter.partner? seen with
    | some previous => .error (.duplicateSetter previous.name)
    | none => checkSetters (seen ++ [setter]) setters

/-- Pairs fields and getters with setters, in order; the setters left over come last. -/
def pair : (seen : List PlanEntry) → (setters : List PlanEntry) → List PlanEntry →
    Except PlanFault (List PlannedField × List PlanEntry)
  | _, setters, [] => .ok ([], setters)
  | seen, setters, field :: fields =>
    if (field.partner? seen).isSome then
      .error (.duplicateField field.name)
    else if field.access = .direct then do
      let (planned, left) ← pair (seen ++ [field]) setters fields
      return (⟨field, none⟩ :: planned, left)
    else
      match field.partner? setters with
      | none => .error (.immutableField field.name)
      | some setter => do
        let (planned, left) ← pair (seen ++ [field]) (setters.erase setter) fields
        return (⟨field, some setter⟩ :: planned, left)

/-- The least of the names, by code points. -/
def leastName : List PlanEntry → Option String
  | [] => none
  | entry :: entries =>
    match leastName entries with
    | some name => some (if name < entry.name then name else entry.name)
    | none => some entry.name

/-- The fields of a plan in the order of their names, each with its setter. -/
def fields (plan : Plan) : Except PlanFault (List PlannedField) := do
  let setters := plan.entries.filter fun entry => entry.access = .setter
  checkSetters [] setters
  let (planned, left) ← pair [] setters (plan.entries.filter fun entry => entry.access ≠ .setter)
  if let some name := leastName left then throw (.orphanSetter name)
  return planned.mergeSort fun one other => one.field.name ≤ other.field.name

/-- Fields that pair up and are listed in the order of their names are left in this order. -/
theorem fields_of_sorted {plan : Plan} {planned : List PlannedField}
    (hcheck : checkSetters [] (plan.entries.filter fun entry => entry.access = .setter) = .ok ())
    (hpair : pair [] (plan.entries.filter fun entry => entry.access = .setter)
      (plan.entries.filter fun entry => entry.access ≠ .setter) = .ok (planned, []))
    (hsorted : planned.Pairwise fun one other => decide (one.field.name ≤ other.field.name) = true) :
    plan.fields = .ok planned := by
  have hsame := List.mergeSort_of_pairwise hsorted
  unfold fields
  dsimp only
  rw [hcheck, hpair]
  exact congrArg Except.ok hsame

/-- Binds a field of a codec for the record type `type`. -/
def bindField (type : String) (planned : PlannedField) : Resolve Field := do
  let field := planned.field
  let setter := planned.setter.getD field
  if setter.type ≠ field.type then throw (.generation type (.disagreement field.name))
  return .mk ⟨field.name, field.slot, setter.slot, field.type⟩ (← field.type.kind.bind (.record type))

/-- The codec that the plan describes, with fields bound to the codecs that the registry has now. -/
def build (plan : Plan) : Resolve Codec := do
  let some fresh := plan.fresh | throw (.generation plan.type .noConstructor)
  let markers ← ofExcept (MarkerRange.single plan.marker)
  let fields ← ofExcept (plan.fields.mapError (Error.generation plan.type))
  return .record markers plan.type fresh (← fields.mapM (bindField plan.type))

/-- Registers the codec that the plan describes. -/
def define (plan : Plan) : Resolve Codec := do
  Registry.register (← plan.build)

end Plan

end Bytemark
