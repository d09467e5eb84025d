import HttpEcho.Http.Router
import HttpEcho.Http.Wire.Head

/-! Responses on the wire. -/
namespace HttpEcho.Http.Wire

/-- The words that go with a status. -/
def reason : Nat → String
  | 200 => "OK"
  | 400 => "Bad Request"
  | 404 => "Not Found"
  | 414 => "URI Too Long"
  | 431 => "Request Header Fields Too Large"
  | _ => "Unknown"

/-- The word that a client waits for before it sends a body. -/
def continueText : List UInt8 := "HTTP/1.1 100 Continue\r\n\r\n".toUTF8.toList

/-- What is said of the connection. The default of the version goes without saying. -/
def connectionFields (version : Version) (keepsAlive : Bool) : List (String × String) :=
  match version, keepsAlive with
  | .http11, false => [("connection", "close")]
  | .http10, true => [("connection", "keep-alive")]
  | _, _ => []

/-- A status line and fields, up to the body. -/
def headText (version : Version) (status : Nat) (fields : List (String × String)) : String :=
  let lines := fields.map fun (name, value) => name ++ ": " ++ value ++ "\r\n"
  version.text ++ " " ++ toString status ++ " " ++ reason status ++ "\r\n" ++ String.join lines ++
    "\r\n"

/-- The field of a date. -/
def dateField (date : String) : List (String × String) := [("date", date)]

/-- A reply as it is sent. -/
def replyOctets (version : Version) (keepsAlive : Bool) (date : String) (r : Reply) : List UInt8 :=
  let fields := r.fields ++ connectionFields version keepsAlive ++ dateField date
  (headText version r.status fields).toUTF8.toList ++ r.body

/-- A refusal as it is sent. The connection does not stay. -/
def refusalOctets (date : String) (e : HeadError) : List UInt8 :=
  let fields := connectionFields .http11 false ++ [("content-length", "0")] ++ dateField date
  (headText .http11 e.status fields).toUTF8.toList

end HttpEcho.Http.Wire
