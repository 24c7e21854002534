import ManifestLens.Fault
import ManifestLens.Outline.Basic
import ManifestLens.Resource.Basic

/-!
# The cache of resources

Prepared resources are kept by kind and name, with the specification that they were prepared from and where it is.
-/

namespace ManifestLens

/-- Where a resource was defined, as far as that is noted.  The anchor may be noted and yet be nothing. -/
structure Provenance where
  uri : Option Value
  anchor : Option (Option Anchor)
  /-- Something else is noted. -/
  more : Bool
  deriving Inhabited

namespace Provenance

/-- Where a manifest of a file is. -/
def ofFile (uri : String) (anchor : Anchor) : Provenance :=
  ⟨some (.str uri), some (some anchor), false⟩

/-- Nothing is noted. -/
def isEmpty (p : Provenance) : Bool :=
  p.uri.isNone && p.anchor.isNone && !p.more

/-- The anchor, where one is noted and is something. -/
def anchor? (p : Provenance) : Option Anchor :=
  p.anchor.getD none

/-- The resource was defined in the given file. -/
def isIn (p : Provenance) (uri : String) : Bool :=
  match p.uri with
  | some (.str s) => s == uri
  | _ => false

end Provenance

/-- What is kept of a resource. -/
structure CacheEntry where
  resource : Resource
  spec : Value
  provenance : Option Provenance
  deriving Inhabited

/-- Where the resource was defined, if something is noted. -/
def CacheEntry.source? (e : CacheEntry) : Option Provenance :=
  e.provenance.filter fun p => !p.isEmpty

/-- A resource by its kind and name. -/
structure ResourceKey where
  kind : String
  name : Value
  deriving Inhabited

def ResourceKey.matches (key : ResourceKey) (kind : String) (name : Value) : Bool :=
  key.kind == kind && key.name.equals name

/-- The kept resources. -/
abbrev Cache := List (ResourceKey × CacheEntry)

namespace Cache

/-- What is kept of the resource with a kind and name. -/
def get? (cache : Cache) (kind name : String) : Option CacheEntry :=
  (cache.find? fun e => e.1.matches kind (.str name)).map (·.2)

/-- The resource with a kind and name, or nothing. -/
def resource (cache : Cache) (kind name : String) : Resource :=
  match cache.get? kind name with
  | some e => e.resource
  | none => .nothing

/-- Keeps a resource in place of one with its kind and name. -/
def insert : Cache → ResourceKey → CacheEntry → Cache
  | [], key, entry => [(key, entry)]
  | (k, e) :: rest, key, entry =>
    if k.matches key.kind key.name then (k, entry) :: rest else (k, e) :: insert rest key entry

/-- Forgets the resource with a kind and name. -/
def erase (cache : Cache) (kind name : String) : Cache :=
  cache.filter fun e => !e.1.matches kind (.str name)

end Cache

/-! ### Preparation -/

/-- What comes of preparing a manifest. -/
inductive Preparation where
  | prepared (resource : Resource)
  | refused (reason : String)
  deriving Inhabited

/-- The kind and name of a resource. -/
structure ResourceName where
  kind : String
  name : String
  deriving DecidableEq, Inhabited

/-- What is done elsewhere: preparing manifests, by kind and name, and keeping track of who depends on whom. -/
structure Services where
  prepare : String → String → Preparation
  subscribers : String → String → List ResourceName

/-- Prepares a manifest and keeps the result, unless there is a reason not to. -/
def Services.prepareInto (services : Services) (cache : Cache) (kind : String) (name : Option Value)
    (spec : Value) (provenance : Provenance) : Except String Cache :=
  match name with
  | none => .error "metadata has no name"
  | some .null => .error "metadata has no name"
  | some name =>
    match services.prepare kind name.text with
    | .refused reason => .error reason
    | .prepared resource =>
      if name.isKey then .ok (cache.insert ⟨kind, name⟩ ⟨resource, spec, some provenance⟩)
      else .error s!"unhashable type: '{name.typeName}'"

end ManifestLens
