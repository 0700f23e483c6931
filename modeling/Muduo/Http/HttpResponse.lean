import Muduo.Http.HttpRequest
import Muduo.Net.TcpConnection

/-! # `HttpResponse`

The response that the callback of the server fills in, `muduo/net/http/HttpResponse.h`, and
`appendToBuffer`, which writes its status line, its header and its body. The bytes of a file
response come after that, from `sendfile`. -/

namespace Muduo

namespace Http

open Net

/-- `HttpResponse::HttpStatusCode`. -/
inductive HttpStatusCode
  | kUnkown
  | k200Ok
  | k204NoContent
  | k301MovedPermanently
  | k400BadRequest
  | k404NotFound
deriving DecidableEq, Repr

/-- The value of the enumerator. -/
def HttpStatusCode.toNat : HttpStatusCode → ℕ
  | kUnkown => 0
  | k200Ok => 200
  | k204NoContent => 204
  | k301MovedPermanently => 301
  | k400BadRequest => 400
  | k404NotFound => 404

/-- What `snprintf(buf, size, ...)` leaves in `buf` of a text: the last byte is for the `'\0'`. -/
def snprintf (size : ℕ) (text : Bytes) : Bytes := text.take (size - 1)

/-- `HttpResponse`. -/
structure HttpResponse where
  /-- `closeConnection_`. -/
  closeConnection : Bool
  /-- `statusCode_`. -/
  statusCode : HttpStatusCode
  /-- `statusString_`. -/
  statusString : Bytes
  /-- `header_`. -/
  header : HeaderMap
  /-- `body_`. -/
  body : Bytes
  /-- `file_`, if `sendFile_` is set. -/
  file : Option File

namespace HttpResponse

/-- `HttpResponse(closed)`. It leaves `statusCode_` as it is; the model has `kUnkown` there. -/
def new (closed : Bool) : HttpResponse := ⟨closed, .kUnkown, [], ∅, [], none⟩

/-- `size` in `appendToBuffer`. -/
def size (response : HttpResponse) : BitVec 64 :=
  match response.file with
  | some file => file.fileSize
  | none => BitVec.ofNat 64 response.body.length

/-- One round of the loop over `header_`. -/
def appendHeader (buffer : ByteBuffer) (header : Bytes × Bytes) : ByteBuffer :=
  (((buffer.append header.1).append (ascii ": ")).append header.2).append [CR, LF]

/-- `appendToBuffer(buffer)`. The size is written as a signed number. -/
def appendToBuffer (response : HttpResponse) (buffer : ByteBuffer) : ByteBuffer :=
  let buffer := buffer.append
    (snprintf 32 (ascii "HTTP/1.1 " ++ ascii (toString response.statusCode.toNat) ++ [SP]))
  let buffer := buffer.append response.statusString
  let buffer := buffer.append [CR, LF]
  let buffer :=
    if response.closeConnection then buffer.append (ascii "Connection: close" ++ [CR, LF])
    else
      let buffer := buffer.append
        (snprintf 32 (ascii "Content-Length: " ++ ascii (toString response.size.toInt) ++ [CR, LF]))
      buffer.append (ascii "Connection: Keep-Alive" ++ [CR, LF])
  let buffer := response.header.toList.foldl appendHeader buffer
  let buffer := buffer.append [CR, LF]
  buffer.append response.body

end HttpResponse

end Http

end Muduo
