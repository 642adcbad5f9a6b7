import Osxie.Lib.Table

/-!
# The database of launchservicesd

`LSBundle` registers bundles: it stores the types that the Info dictionary of a bundle exports, the types of its documents and
its URL types. A bundle that is registered already is updated. Every kind of data has a table of rows that refer to the bundle
and tables of values that refer to those rows, and is updated in its own way.

Foreign keys are not enforced, so deleting a row leaves the rows that refer to it where they are.
-/

namespace Osxie.LaunchServices

/-! ## The Info dictionary

What the code reads of it. An array that it goes through is given by the values that it finds; where it asks whether a value is a
string, the value may be any other. -/

inductive Value where
  | string (text : String)
  | other (description : String)
deriving DecidableEq

def Value.text? : Value → Option String
  | .string text => some text
  | .other _ => none

/-- A value where a string or an array is expected. -/
inductive Values where
  | one (text : String)
  | many (values : List Value)
  | other
deriving DecidableEq

def Values.texts : Values → List String
  | .one text => [text]
  | .many values => values.filterMap Value.text?
  | .other => []

/-- An entry of `UTExportedTypeDeclarations`. -/
structure TypeDeclaration where
  identifier : Option Value
  description : Option Value
  conformsTo : Option Values
  iconFile : Option Value
  iconFiles : Option (List Value)
  tagSpecification : Option (List (String × Values))
deriving DecidableEq

/-- An entry of `CFBundleDocumentTypes`, or the Info dictionary itself. -/
structure DocumentType where
  iconFile : Option Value
  name : Option Value
  role : Option Value
  rank : Option Value
  documentClass : Option Value
  contentTypes : Option (List Value)
  extensions : Option (List Value)
  mimeTypes : Option (List Value)
deriving DecidableEq

/-- An entry of `CFBundleURLTypes`. The icon is read from the key `CFBundleURLTypes`. -/
structure URLType where
  role : Option Value
  iconFile : Option Value
  name : Option Value
  schemes : Option (List Value)
deriving DecidableEq

/-- The Info dictionary of a bundle, with its identifier and its package information. -/
structure InfoDictionary where
  identifier : Option String
  packageType : Option String
  packageCreator : Option String
  signature : Option Value
  exportedTypes : Option (List TypeDeclaration)
  documentTypes : Option (List DocumentType)
  asDocumentType : DocumentType
  urlTypes : Option (List URLType)
deriving DecidableEq

/-- The dictionaries that describe document types: those of the list, and the Info dictionary itself if it has a role. -/
def InfoDictionary.documents (info : InfoDictionary) : List DocumentType :=
  info.documentTypes.getD [] ++ if info.asDocumentType.role.isSome then [info.asDocumentType] else []

namespace TypeDeclaration

variable (uti : TypeDeclaration)

def typeId : Option String := uti.identifier.bind Value.text?

def descriptionFor (typeId : String) : String := (uti.description.bind Value.text?).getD typeId

def conformances : List String := (uti.conformsTo.map Values.texts).getD []

/-- The icon, whatever it is, and then those of the list that are strings. -/
def icons : List Value :=
  uti.iconFile.toList ++ (uti.iconFiles.getD []).filter fun icon => icon.text?.isSome

def tags : List (String × String) :=
  (uti.tagSpecification.getD []).flatMap fun tag => tag.2.texts.map fun value => (tag.1, value)

end TypeDeclaration

/-! ## The tables -/

/-- How a column with `COLLATE NOCASE` is compared: letters of ASCII without their case. -/
def nocase (text : String) : List Char := text.toList.map Char.toLower

structure BundleRow where
  path : String
  bundleId : String
  checksum : Nat
  packageType : Option String
  creator : Option String
  signature : Option Value
deriving DecidableEq

structure UtiRow where
  typeIdentifier : String
  description : String
  bundle : Nat
deriving DecidableEq

structure AppDocRow where
  icon : Option Value
  name : Option Value
  role : Value
  rank : Value
  documentClass : Option Value
  bundle : Nat
deriving DecidableEq

structure URLTypeRow where
  bundle : Nat
  role : Value
  name : Option Value
  icon : Option Value
deriving DecidableEq

/-- `uti`, `uti_conforms`, `uti_icon` and `uti_tag`. -/
structure TypeTables where
  uti : Table UtiRow
  conforms : Table (Nat × String)
  icon : Table (Nat × Value)
  tag : Table (Nat × String × String)

/-- `app_doc`, `app_doc_uti`, `app_doc_extension` and `app_doc_mime`. -/
structure DocumentTables where
  doc : Table AppDocRow
  uti : Table (Nat × String)
  extension : Table (Nat × String)
  mime : Table (Nat × String)

/-- `bundle_url_type` and `bundle_url_type_scheme`. -/
structure URLTables where
  type : Table URLTypeRow
  scheme : Table (Nat × Value)

/-- Some tables, and the number of the row that the connection has inserted last. -/
structure Connection (τ : Type) where
  tables : τ
  lastInsertRowId : Nat

/-- The number of the last row, after `count` more from `next` on. -/
def lastAfter (last next count : Nat) : Nat := if count = 0 then last else next + count - 1

/-! ## `processUTIs:` -/

namespace TypeTables

/-- `select id, description from uti where type_identifier = ? and bundle = ?`. -/
def find (t : TypeTables) (bundle : Nat) (typeId : String) : Option (Nat × UtiRow) :=
  (t.uti.select fun row => decide (nocase row.typeIdentifier = nocase typeId) && row.bundle == bundle).head?

/-- `insert into uti (type_identifier, description, bundle) values (?,?,?)`. -/
def insertType (t : TypeTables) (row : UtiRow) : TypeTables := { t with uti := t.uti.insert row }

variable (c : Connection TypeTables) (bundle : Nat)

/-- The row of a type, which is inserted if it is new. Where the description has changed, the row is given the old one. -/
def ensure (typeId description : String) : Connection TypeTables × Nat :=
  match c.tables.find bundle typeId with
  | some (utiId, row) =>
    let oldDesc := row.description
    if oldDesc ≠ description then
      ({ c with tables := { c.tables with uti := c.tables.uti.update utiId fun row => { row with description := oldDesc } } }, utiId)
    else (c, utiId)
  | none => (⟨c.tables.insertType ⟨typeId, description, bundle⟩, c.tables.uti.next⟩, c.tables.uti.next)

/-- The conformances, icons and tags of a type, in place of those that it had. -/
def fill (utiId : Nat) (uti : TypeDeclaration) : Connection TypeTables where
  tables := { c.tables with
    conforms := c.tables.conforms.replace utiId uti.conformances
    icon := c.tables.icon.replace utiId uti.icons
    tag := c.tables.tag.replace utiId uti.tags }
  lastInsertRowId :=
    lastAfter (lastAfter (lastAfter c.lastInsertRowId c.tables.conforms.next uti.conformances.length) c.tables.icon.next
      uti.icons.length) c.tables.tag.next uti.tags.length

/-- One round of the loop over the declarations, with the types that are not declared so far. -/
def processUTI (s : Connection TypeTables × List String) (uti : TypeDeclaration) :
    Connection TypeTables × List String :=
  match uti.typeId with
  | none => s
  | some typeId =>
    let (c, utiId) := ensure s.1 bundle typeId (uti.descriptionFor typeId)
    (fill c utiId uti, s.2.filter fun previous => previous ≠ typeId)

/-- `delete from uti where type_identifier = ? and bundle = ?`. -/
def deleteType (t : TypeTables) (deletedId : String) : TypeTables :=
  { t with
    uti := t.uti.delete fun row => decide (nocase row.typeIdentifier = nocase deletedId) && row.bundle == bundle }

def processUTIs (utis : List TypeDeclaration) : Connection TypeTables :=
  let previousUtis := (c.tables.uti.select fun row => row.bundle == bundle).map fun r => r.2.typeIdentifier
  let (c, previousUtis) := utis.foldl (processUTI bundle) (c, previousUtis)
  { c with tables := previousUtis.foldl (deleteType bundle) c.tables }

end TypeTables

/-! ## `processFileAssociations` and `processURLTypes` -/

def texts (values : Option (List Value)) : List String := (values.getD []).filterMap Value.text?

namespace DocumentTables

/-- `processFileAssociation:`. Extensions and MIME types are looked at only where there are no content types. -/
def processFileAssociation (bundle : Nat) (c : Connection DocumentTables) (dict : DocumentType) : Connection DocumentTables :=
  let appDocId := c.tables.doc.next
  let doc := c.tables.doc.insert
    ⟨dict.iconFile, dict.name, dict.role.getD (.string "None"), dict.rank.getD (.string "Default"), dict.documentClass, bundle⟩
  if dict.contentTypes.isSome then
    { tables := { c.tables with doc := doc, uti := c.tables.uti.insertAll appDocId (texts dict.contentTypes) }
      lastInsertRowId := lastAfter appDocId c.tables.uti.next (texts dict.contentTypes).length }
  else
    { tables := { c.tables with
        doc := doc
        extension := c.tables.extension.insertAll appDocId (texts dict.extensions)
        mime := c.tables.mime.insertAll appDocId (texts dict.mimeTypes) }
      lastInsertRowId :=
        lastAfter (lastAfter appDocId c.tables.extension.next (texts dict.extensions).length) c.tables.mime.next
          (texts dict.mimeTypes).length }

def processFileAssociations (c : Connection DocumentTables) (bundle : Nat) (info : InfoDictionary) : Connection DocumentTables :=
  let c := { c with tables := { c.tables with doc := c.tables.doc.delete fun row => row.bundle == bundle } }
  info.documents.foldl (processFileAssociation bundle) c

end DocumentTables

namespace URLTables

/-- One round of the loop over the URL types. -/
def processURLType (bundle : Nat) (c : Connection URLTables) (urlType : URLType) : Connection URLTables :=
  let typeId := c.tables.type.next
  let schemes := urlType.schemes.getD []
  { tables := { c.tables with
      type := c.tables.type.insert ⟨bundle, urlType.role.getD (.string "None"), urlType.name, urlType.iconFile⟩
      scheme := c.tables.scheme.insertAll typeId schemes }
    lastInsertRowId := lastAfter typeId c.tables.scheme.next schemes.length }

def processURLTypes (c : Connection URLTables) (bundle : Nat) (info : InfoDictionary) : Connection URLTables :=
  let c := { c with tables := { c.tables with type := c.tables.type.delete fun row => row.bundle == bundle } }
  (info.urlTypes.getD []).foldl (processURLType bundle) c

end URLTables

/-! ## `process` -/

/-- The database, and the number of the row that was inserted last. -/
structure Database where
  bundle : Table BundleRow
  types : TypeTables
  docs : DocumentTables
  urls : URLTables
  lastInsertRowId : Nat

namespace Database

/-- The database after `createDBSchema`, which inserts the version. -/
def empty : Database where
  bundle := .empty
  types := ⟨.empty, .empty, .empty, .empty⟩
  docs := ⟨.empty, .empty, .empty, .empty⟩
  urls := ⟨.empty, .empty⟩
  lastInsertRowId := 1

/-- `select id, checksum from bundle where path = ?`. -/
def bundleAt (db : Database) (path : String) : Option (Nat × BundleRow) := (db.bundle.select fun row => row.path == path).head?

/-- `update bundle set checksum = ?, package_type = ?, creator = ?, signature = ? where id = ?`. -/
def updateBundle (db : Database) (bundleId newChecksum : Nat) (info : InfoDictionary) : Database :=
  { db with
    bundle := db.bundle.update bundleId fun row =>
      { row with
        checksum := newChecksum
        packageType := info.packageType
        creator := info.packageCreator
        signature := info.signature } }

variable (checksum : InfoDictionary → Nat) (db : Database) (path : String) (info : InfoDictionary)

/-- `setupBundleID`: the bundle's number, or none if the bundle has not changed. A bundle without an identifier is not inserted,
since the column may not be null; its number is then the one of the row that was inserted last, whatever it was. -/
def setupBundleID : Option (Database × Nat) :=
  match db.bundleAt path with
  | some (bundleId, row) =>
    if row.checksum = checksum info then none
    else some (db.updateBundle bundleId (checksum info) info, bundleId)
  | none =>
    match info.identifier with
    | some identifier =>
      some ({ db with
        bundle := db.bundle.insert
          ⟨path, identifier, checksum info, info.packageType, info.packageCreator, info.signature⟩
        lastInsertRowId := db.bundle.next }, db.bundle.next)
    | none => some (db, db.lastInsertRowId)

def processUTIs (db : Database) (bundle : Nat) (utis : List TypeDeclaration) : Database :=
  let c := TypeTables.processUTIs ⟨db.types, db.lastInsertRowId⟩ bundle utis
  { db with types := c.tables, lastInsertRowId := c.lastInsertRowId }

def processFileAssociations (db : Database) (bundle : Nat) (info : InfoDictionary) : Database :=
  let c := DocumentTables.processFileAssociations ⟨db.docs, db.lastInsertRowId⟩ bundle info
  { db with docs := c.tables, lastInsertRowId := c.lastInsertRowId }

def processURLTypes (db : Database) (bundle : Nat) (info : InfoDictionary) : Database :=
  let c := URLTables.processURLTypes ⟨db.urls, db.lastInsertRowId⟩ bundle info
  { db with urls := c.tables, lastInsertRowId := c.lastInsertRowId }

/-- What `process` does to the database of a bundle that is new or has changed. -/
def refresh (bundle : Nat) (info : InfoDictionary) : Database :=
  let db :=
    match info.exportedTypes with
    | some utis => db.processUTIs bundle utis
    | none => db
  (db.processFileAssociations bundle info).processURLTypes bundle info

def process : Database :=
  match db.setupBundleID checksum path info with
  | none => db
  | some (db, bundle) => db.refresh bundle info

/-- `executeQuery:`: the statement is prepared. It runs when the first row of the result is fetched. -/
def executeQuery (statement : Database → Database) : Database × (Database → Database) := (db, statement)

/-- `deleteBundleAtPath:`, which does not fetch a row. -/
def deleteBundleAtPath : Database :=
  (db.executeQuery fun db => { db with bundle := db.bundle.delete fun row => row.path == path }).1

end Database

/-! ## What is stored for a path -/

structure StoredType where
  identifier : String
  description : String
  conformsTo : List String
  icons : List Value
  tags : List (String × String)
deriving DecidableEq

structure StoredDocument where
  icon : Option Value
  name : Option Value
  role : Value
  rank : Value
  documentClass : Option Value
  utis : List String
  extensions : List String
  mimeTypes : List String
deriving DecidableEq

structure StoredURLType where
  role : Value
  name : Option Value
  icon : Option Value
  schemes : List Value
deriving DecidableEq

def TypeTables.stored (t : TypeTables) (r : Nat × UtiRow) : StoredType :=
  ⟨r.2.typeIdentifier, r.2.description, t.conforms.children r.1, t.icon.children r.1, t.tag.children r.1⟩

def TypeTables.ofBundle (t : TypeTables) (bundle : Nat) : List StoredType :=
  (t.uti.select fun row => row.bundle == bundle).map t.stored

def DocumentTables.stored (t : DocumentTables) (r : Nat × AppDocRow) : StoredDocument :=
  ⟨r.2.icon, r.2.name, r.2.role, r.2.rank, r.2.documentClass, t.uti.children r.1, t.extension.children r.1, t.mime.children r.1⟩

def DocumentTables.ofBundle (t : DocumentTables) (bundle : Nat) : List StoredDocument :=
  (t.doc.select fun row => row.bundle == bundle).map t.stored

def URLTables.stored (t : URLTables) (r : Nat × URLTypeRow) : StoredURLType :=
  ⟨r.2.role, r.2.name, r.2.icon, t.scheme.children r.1⟩

def URLTables.ofBundle (t : URLTables) (bundle : Nat) : List StoredURLType :=
  (t.type.select fun row => row.bundle == bundle).map t.stored

structure Stored where
  types : List StoredType
  documents : List StoredDocument
  urlTypes : List StoredURLType
deriving DecidableEq

/-- What is stored for a path, if a bundle is registered there. -/
def Database.stored (db : Database) (path : String) : Option Stored :=
  (db.bundleAt path).map fun r => ⟨db.types.ofBundle r.1, db.docs.ofBundle r.1, db.urls.ofBundle r.1⟩

end Osxie.LaunchServices
