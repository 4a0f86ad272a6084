import PointsTo.Program.Hierarchy

/-! Abstract heap objects. A heap model says which object an allocation site creates: one of its own,
or one that stands for all objects of the allocated class. -/

namespace PointsTo

inductive Origin where
  | site (site : SiteId)
  | merged (cls : ClassId)
  deriving DecidableEq, Repr, Inhabited

structure HeapObject where
  origin : Origin
  type : ClassId
  /-- The class of the method that holds the allocation site. -/
  container : Option ClassId
  deriving DecidableEq, Repr, Inhabited

namespace HeapObject

def code (o : HeapObject) : List Nat :=
  let origin :=
    match o.origin with
    | .site site => [0, site.index]
    | .merged cls => [1, cls.index]
  origin ++ o.type.index :: (o.container.map Id.index).toList

instance heapObjectCoded : Coded HeapObject where
  code := code
  code_injective {a b} h := by
    obtain ⟨oa, ta, ca⟩ := a
    obtain ⟨ob, tb, cb⟩ := b
    cases oa <;> cases ob <;> cases ca <;> cases cb <;> simp_all [code, Id.ext_iff]

def text (m : Model) (o : HeapObject) : String :=
  match o.origin with
  | .site site => m.siteSignature site
  | .merged cls => "merged " ++ m.className cls

end HeapObject

inductive HeapModel where
  | allocationSite
  | type
  deriving DecidableEq, Repr, Inhabited

namespace HeapModel

def text : HeapModel → String
  | allocationSite => "allocation-site"
  | type => "type"

/-- The object created at an allocation site. -/
def object (h : HeapModel) (m : Model) (s : SiteId) : HeapObject :=
  let site := m.site s
  match h with
  | allocationSite => ⟨.site s, site.cls, some (m.method site.container).owner⟩
  | type => ⟨.merged site.cls, site.cls, none⟩

end HeapModel

end PointsTo
