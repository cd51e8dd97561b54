import AssetPack.Fault
import AssetPack.Selector

/-!
# Issues

Everything that can go wrong between a description and a pack, and between a pack and its files.
Places inside a dictionary are given by their selectors.
-/
namespace AssetPack

/-- A report about a description, a resource or a file that goes with them. -/
inductive Issue where
  /-- in the words of a resource type -/
  | said (text : String)
  | faulty (fault : Fault)
  | brokenDict (place : String)
  | brokenPayload (place : String)
  | rootNotDict
  -- imports
  | badImport (place : String)
  | recursiveImport (path : String)
  | unreadableImport (path : String) (error : FileError)
  | faultyImport (path : String) (fault : Fault)
  | importNotDict (path : String)
  -- templates and values
  | badTemplateName (place : String)
  | unknownTemplate (name : String)
  | templateCycle (chain : List String) (name : String)
  | extraValues (template : String)
  | valuesNotDict (place : String)
  | undefinedValue (text : String)
  | notLocalized (text : String)
  -- files and references
  | fileNotFound (path : String)
  | unreadableFile (path : String) (error : FileError)
  | missingReference (name place : String)
  | referenceCycle (names : List String)
  -- resources
  | noFactory (type place : String)
  | notCreated (type place : String)
  | notFinished (place : String)
  | dependsOnItself (name : String)
  | dependencyFailed (dependency name : String)
  | notSaved (place : String)
  | siblingInUse (name owner : String)
  -- resources of a pack
  | undecodable (name : String)
  | unknownType (type name : String)
  | notRestored (type name : String)
  | notConstructed (name : String)
  | notLoaded (type place : String)
  | notWritten (place : String) (fault : Fault)
  deriving DecidableEq, Repr

namespace Issue

/-- Names with arrows between them. -/
def arrows (names : List String) : String := " -> ".intercalate names

/-- The words of an issue. -/
def message : Issue → String
  | said text => text
  | faulty fault => fault.message
  | brokenDict place => "Failed to load dict at: " ++ place
  | brokenPayload place => "Failed to load saved dict at: " ++ place
  | rootNotDict => "Resource description root is not a dict"
  | badImport place => "Invalid res:import value at: " ++ place
  | recursiveImport path => "Recursive JSON import: " ++ path
  | unreadableImport path error => "Failed to read JSON import file: " ++ path ++ ": " ++ error.message
  | faultyImport path fault => "Failed to read JSON import file: " ++ path ++ "\n" ++ fault.message
  | importNotDict path => "Imported JSON is not a dict: " ++ path
  | badTemplateName place => "Invalid template name at: " ++ place
  | unknownTemplate name => "Invalid template name: " ++ name
  | templateCycle chain name => "Template cycle: " ++ arrows chain ++ " -> " ++ name
  | extraValues template => "Unexpected extra values for template: " ++ template
  | valuesNotDict place => "res:values must be a dict at: " ++ place
  | undefinedValue text => "Undefined value: " ++ text
  | notLocalized text => "Missing localized value: " ++ text
  | fileNotFound path => "File not found: " ++ path
  | unreadableFile path error => "Failed to read file: " ++ path ++ ": " ++ error.message
  | missingReference name place => "Missing reference: " ++ name ++ " (at " ++ place ++ ")"
  | referenceCycle names => "Reference cycle: " ++ arrows names
  | noFactory type place =>
    "Failed to create object of type: " ++ type ++ " (no factory, at " ++ place ++ ")"
  | notCreated type place => "Failed to create object of type: " ++ type ++ " (at " ++ place ++ ")"
  | notFinished place => "Failed to finish loading resource: " ++ place
  | dependsOnItself name => "Can't finish loading a resource that depends on itself: " ++ name
  | dependencyFailed dependency name =>
    "Failed to finish loading dependent resource: " ++ dependency ++ " (needed by " ++ name ++ ")"
  | notSaved place => "Failed to save resource: " ++ place
  | siblingInUse name owner =>
    "Sibling resource name already in use: " ++ name ++ " (from " ++ owner ++ ")"
  | undecodable name => "Failed to decode saved data for resource: " ++ name
  | unknownType type name =>
    "No factory registered for type: " ++ type ++ " (resource: " ++ name ++ ")"
  | notRestored type name =>
    "Failed to create object of type: " ++ type ++ " (resource: " ++ name ++ ")"
  | notConstructed name => "Failed to construct resource: " ++ name
  | notLoaded type place => "Failed to load " ++ type ++ " from cache: " ++ place
  | notWritten place fault => "Failed to write " ++ place ++ ": " ++ fault.message

/-- Whether there is nothing to report. Such an issue is not recorded. -/
def isSilent (i : Issue) : Bool := i.message = ""

/-- The issues of a list that have words. -/
def audible (issues : List Issue) : List Issue := issues.filter fun i => !i.isSilent

end Issue
end AssetPack
