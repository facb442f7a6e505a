import AvroDerive.FileSystem
import AvroDerive.Text.Debug
import AvroDerive.Url.Basic

/-! # Failures

Why a conversion fails. The cause is kept as data; its wording is in one place.
-/

namespace AvroDerive

/-- Why the text of a document cannot be had. -/
inductive FetchError where
  | http (uri reason : String)
  | httpStatus (uri : String) (status : Nat)
  | file (path : List UInt8) (error : FileSystem.Error)
  | invalidFileUrl (uri : String)
  | unsupportedScheme (scheme : String)
  | notFound (uri : String)
  deriving DecidableEq, Repr

def FetchError.message : FetchError → String
  | .http uri reason => "HTTP request to " ++ uri ++ " failed: " ++ reason
  | .httpStatus uri status =>
    "HTTP request to " ++ uri ++ " returned status " ++ toString status
  | .file path error =>
    "Error reading file at " ++ Text.debugBytes path ++ ": " ++ error.message
  | .invalidFileUrl uri => "Invalid file URL: " ++ uri
  | .unsupportedScheme scheme => "Unsupported URL scheme: " ++ scheme
  | .notFound uri => "No content registered for " ++ uri

inductive Failure where
  /-- A reference whose fragment is not in the document. -/
  | unresolved (reference base : String)
  /-- A reference or a location that is no URL. -/
  | invalidReference (reference : String) (error : Url.Error)
  | fetch (error : FetchError)
  /-- A document whose text is no JSON. -/
  | invalidJson (uri : String)
  | noSchema (place : String)
  | write (path : String) (error : FileSystem.Error)
  deriving DecidableEq, Repr

def Failure.message : Failure → String
  | .unresolved reference base =>
    "Error resolving JSON Pointer reference " ++ reference ++ " for " ++ base
  | .invalidReference reference error => "Invalid $ref " ++ reference ++ ": " ++ error.message
  | .fetch error => error.message
  | .invalidJson uri => "Error decoding JSON from " ++ uri
  | .noSchema place => "No schema found in " ++ place
  | .write path error => "Failed to write " ++ Text.debug path ++ ": " ++ error.message

end AvroDerive
