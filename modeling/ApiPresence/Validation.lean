import ApiPresence.Report
import ApiPresence.Tree.Lookup

namespace ApiPresence

/-- Where paths, schemas and security schemes stand in a description. -/
def pathsSection : List String := ["paths"]

def schemasSection : List String := ["components", "schemas"]

def securitySchemesSection : List String := ["components", "securitySchemes"]

/-- A key that a section of a description is expected to have. -/
structure Expectation where
  category : Category
  place : List String
  identifier : String
  deriving DecidableEq, Repr

/-- The keys expected of a description, in the order in which they are checked. -/
structure ExpectationSet where
  paths : List String
  schemas : List String
  securityScheme : String
  deriving DecidableEq, Repr

namespace ExpectationSet

/-- What a service of users and posts is expected to describe. -/
def default : ExpectationSet where
  paths := ["/users/register", "/users/login", "/users/me", "/posts", "/posts/\x7bid\x7d",
    "/health"]
  schemas :=
    ["User", "CreateUserDto", "LoginDto", "AuthResponse", "Post", "CreatePostDto", "ApiResponse",
      "ApiError"]
  securityScheme := "bearerAuth"

instance : Inhabited ExpectationSet := ⟨default⟩

/-- Paths first, then schemas, then the security scheme. -/
def toList (e : ExpectationSet) : List Expectation :=
  e.paths.map (⟨.path, pathsSection, ·⟩) ++ e.schemas.map (⟨.schema, schemasSection, ·⟩)
    ++ [⟨.security, securitySchemesSection, e.securityScheme⟩]

def checkCount (e : ExpectationSet) : Nat := e.paths.length + e.schemas.length + 1

def contains (e : ExpectationSet) : Category → String → Bool
  | .path, identifier => e.paths.contains identifier
  | .schema, identifier => e.schemas.contains identifier
  | .security, identifier => e.securityScheme == identifier
  | .metadata, _ => false

end ExpectationSet

def excerptLength : Nat := 50

def ellipsis : String := "..."

/-- The first characters of a description; dots follow whether or not something is left out. -/
def descriptionExcerpt (description : String) : String :=
  String.ofList (description.toList.take excerptLength) ++ ellipsis

def summarize (document : Tree) : Summary where
  version := document.scalarAt ["openapi"]
  title := document.scalarAt ["info", "title"]
  descriptionExcerpt := descriptionExcerpt (document.stringAt ["info", "description"])
  serverCount := document.sequenceLenAt ["servers"]
  tagCount := document.sequenceLenAt ["tags"]
  pathCount := document.mappingLenAt pathsSection
  schemaCount := document.mappingLenAt schemasSection

def Expectation.check (e : Expectation) (document : Tree) : Check :=
  ⟨e.category, e.identifier, .ofPresence (document.hasKeyAt e.place e.identifier)⟩

/-- One check for each expectation; an absent section only makes keys missing. -/
def validate (expectations : ExpectationSet) (document : Tree) : Report :=
  ⟨summarize document, expectations.toList.map (·.check document)⟩

end ApiPresence
