/-!
# Reserved names

The names and marks that have a meaning in a description or in the pack made of it. All names
that begin with `res:` are reserved.
-/
namespace AssetPack

/-- What follows `mark` in a text that begins with it. -/
def after? (mark text : String) : Option String :=
  if mark.toList.isPrefixOf text.toList then some (String.ofList (text.toList.drop mark.toList.length))
  else none

namespace Key

def reserved : String := "res:"
def file : String := "file:"
def localized : String := "loc:"
def reference : String := "ref:"

def base : String := "res:base"
def compress : String := "res:compress"
def imported : String := "res:import"
def loadListener : String := "res:loadListener"
def symbol : String := "res:symbol"
def template : String := "res:template"
def type : String := "res:type"
def values : String := "res:values"

/-- the files a pack was made from -/
def files : String := "res:files"
def debug : String := "res:debug"
/-- the name under which generated source stands -/
def nameSpace : String := "res:namespace"
/-- the entry name of each symbol -/
def symbols : String := "res:id_symbols"
/-- what resource types produced besides -/
def outputs : String := "res:output_files"
/-- the description a pack was made from -/
def source : String := "res:source"

def defaultNamespace : String := "assets"

/-- Whether a name is reserved. -/
def isReserved (name : String) : Bool := (after? reserved name).isSome

end Key
end AssetPack
