import GradualTypes.Store.Basic

/-!
Several stores at once, some of which share a table of names. A text entered through one store is
then known to all that share its table, while their types stay apart.
-/

namespace GradualTypes

/-- A store and the number of the table of names that it uses. -/
structure Tenant where
  store : Store
  table : Nat

/-- Stores by number. Tenants of one table hold the same names. -/
structure Workspace where
  tenants : Array Tenant

def Tenant.summary (tenant : Tenant) : String :=
  "SharedPool(" ++ tenant.store.summary ++ ")"

namespace Workspace

def initial : Workspace :=
  ⟨#[⟨.initial, 0⟩]⟩

def store? (w : Workspace) (number : Nat) : Option Store :=
  w.tenants[number]?.map Tenant.store

def openStore (w : Workspace) : Workspace :=
  ⟨w.tenants.push ⟨.initial, w.tenants.size⟩⟩

def openSharing? (w : Workspace) (number : Nat) : Option Workspace :=
  w.tenants[number]?.map fun tenant =>
    ⟨w.tenants.push ⟨.ofNames tenant.store.names tenant.store.hash, tenant.table⟩⟩

/-- Puts a store back after an operation, and hands its names to all that share its table. -/
def put (w : Workspace) (number : Nat) (store : Store) : Workspace :=
  match w.tenants[number]? with
  | none => w
  | some owner =>
    let shared := w.tenants.map fun tenant =>
      if tenant.table = owner.table then
        { tenant with store := { tenant.store with names := store.names } }
      else tenant
    ⟨shared.modify number fun tenant => { tenant with store := store }⟩

end Workspace

end GradualTypes
