import Tortue.Adapters.MetadataIo

namespace Tortue

open Collections

namespace Application

inductive Error where
  | invalidTorrentFile (e : Metainfo.Error)
  | metadataFetch (e : MetadataIo.Error)
  deriving DecidableEq, Repr

def metainfoOf (sha1 : Sha1) (rawInfo : Bytes) : Except Error Metainfo :=
  match Metainfo.tryFrom sha1 rawInfo with
  | .ok metainfo => .ok metainfo
  | .error e => .error (.invalidTorrentFile e)

-- `none` while the fetch still waits for its peers.
def fetchMetadata (sha1 : Sha1) (parse : String → Option SocketAddr) (magnet : MagnetLink)
    (received : List (MetadataIo.Received × IterOrder)) : Option (Except Error Metainfo) :=
  match MetadataIo.run sha1 parse magnet received with
  | none => none
  | some (.error e) => some (.error (.metadataFetch e))
  | some (.ok rawInfo) => some (metainfoOf sha1 rawInfo)

end Application

end Tortue
