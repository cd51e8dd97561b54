import AssetPack.Description.Context

/-!
# Resources

A resource is what a typed dictionary stands for. Its type makes it from a description or from
the form that a pack keeps of it. Types and resources may behave in any way and may keep a state
of their own, of type `σ`, which all of them share.
-/
namespace AssetPack

/-- What can be seen of a resource from outside. -/
inductive Body where
  /-- the bytes of a file, its extension with the point, and whether a pack compresses it -/
  | file (data : Bytes) (extension : String) (compress : Bool)
  | fields (d : Dict Value)
  | other

/-- A resource. -/
structure Resource (σ : Type) where
  typeName : String
  body : Body
  /-- add the form that a pack keeps; whether the resource can be kept at all -/
  save : Dict Value → Bool × Dict Value
  /-- the other top-level entries it depends on -/
  dependencies : List String
  /-- finish loading once what it depends on has finished; whether that went well -/
  finish : Context → StateT σ Look (Bool × List Note)
  /-- further top-level entries that go with the one of this name -/
  siblings : String → Dict Value
  /-- write a file of this name into a directory, if the resource has such a form -/
  toFile : (dir : Path) → (name : String) → Script (Except Fault (Option Path))

/-- A type of resources. -/
structure Factory (σ : Type) where
  /-- make a resource from a description -/
  fromSource : Dict Value → Context → StateT σ Look (Option (Resource σ) × List Note)
  /-- make a resource from the form that a pack keeps -/
  fromCache : Dict Value → StateM σ (Option (Resource σ))

namespace Resource
variable {σ : Type}

/-- A resource that does nothing but what it must. -/
def simple (typeName : String) (body : Body) (save : Dict Value → Bool × Dict Value) : Resource σ where
  typeName := typeName
  body := body
  save := save
  dependencies := []
  finish := fun _ => return (true, [])
  siblings := fun _ => ∅
  toFile := fun _ _ => return .ok none

end Resource

/-- The types of resources by name. -/
structure Registry (σ : Type) where
  factories : Dict (Factory σ)

namespace Registry
variable {σ : Type}

def empty : Registry σ := ⟨∅⟩

def get? (r : Registry σ) (typeName : String) : Option (Factory σ) := r.factories.get? typeName

/-- Add a type. A name that is taken already is refused; the new type then stands for it. -/
def register (r : Registry σ) (typeName : String) (f : Factory σ) : Option String × Registry σ :=
  (if r.factories.contains typeName then some ("factory already registered for type: " ++ typeName)
    else none, ⟨r.factories.set typeName f⟩)

/-- The names of the types, sorted. -/
def typeNames (r : Registry σ) : List String := r.factories.listNames true

end Registry
end AssetPack
