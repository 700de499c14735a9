import GoIpfs.Runtime

/-!
# The unixfs payload

A node's `Data` bytes hold a `unixfs.pb.Data` message: the kind of the node, its inline bytes,
the file size and the sizes of its chunks. The wire encoding lives in the protobuf library and
is not modelled: a `Payload` is what `proto.Unmarshal` makes of the bytes, either the message
or the error it rejects them with.
-/

namespace GoIpfs

/-- `ftpb.Data_DataType`; an enum value with none of the four names is `other`. -/
inductive DataType where
  | raw
  | directory
  | file
  | metadata
  | other (code : Int)
  deriving DecidableEq, Repr

/-- The `ftpb.Data` message, read as its getters do: absent fields are empty or zero. -/
structure Data where
  type : DataType
  data : List UInt8
  filesize : UInt64
  blocksizes : List UInt64
  deriving DecidableEq, Repr

/-- Modelled from the spec: a node's `Data` bytes as decoded, the message or the decoder's error. -/
inductive Payload where
  | pb (d : Data)
  | undecodable (msg : String)
  deriving DecidableEq, Repr

/-- Modelled from the spec: `proto.Unmarshal(n.Data, pb)`, and `ft.FromBytes`, which is it. -/
def Payload.unmarshal : Payload → Except Error Data
  | .pb d => .ok d
  | .undecodable msg => .error (.new msg)

/-- Modelled from the spec: `ft.FilePBData(data, totalsize)`. -/
def filePBData (data : List UInt8) (totalsize : UInt64) : Payload :=
  .pb { type := .file, data := data, filesize := totalsize, blocksizes := [] }

/-- Modelled from the spec: `ft.FolderPBData()`. -/
def folderPBData : Payload :=
  .pb { type := .directory, data := [], filesize := 0, blocksizes := [] }

@[simp] theorem unmarshal_pb (d : Data) : (Payload.pb d).unmarshal = .ok d := rfl

@[simp] theorem unmarshal_undecodable (msg : String) :
    (Payload.undecodable msg).unmarshal = .error (.new msg) :=
  rfl

theorem unmarshal_ne_eof (p : Payload) : p.unmarshal ≠ .error .eof := by
  cases p <;> simp

end GoIpfs
