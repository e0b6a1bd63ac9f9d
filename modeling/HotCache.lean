import HotCache.Lib.Buffer
import HotCache.Lib.CString
import HotCache.Lib.Cursor
import HotCache.Lib.Double
import HotCache.Lib.FreeList
import HotCache.Lib.LexPath
import HotCache.Lib.Linked
import HotCache.Lib.Lts
import HotCache.Spec.Url
import HotCache.Spec.Getfile
import HotCache.Spec.Resource
import HotCache.Spec.Upstream
import HotCache.Spec.Site
import HotCache.Spec.Fileid
import HotCache.Spec.Playlist
import HotCache.Spec.Client
import HotCache.Spec.Datagram
import HotCache.Spec.Loading
import HotCache.Spec.Pass
import HotCache.Spec.Buffers
import HotCache.Spec.Getplaylist
import HotCache.Spec.Flv
import HotCache.Spec.UrlCode
import HotCache.Spec.NetUtil
import HotCache.Spec.Handler
import HotCache.Spec.Rename
import HotCache.Spec.Shuffle
import HotCache.Proofs.Pool
import HotCache.Proofs.LocalPath
import HotCache.Proofs.PathCollision
import HotCache.Proofs.StatusLine
import HotCache.Proofs.Fileid
import HotCache.Proofs.Playlist
import HotCache.Proofs.Getfile
import HotCache.Proofs.Upstream
import HotCache.Proofs.Atomic
import HotCache.Proofs.System
import HotCache.Proofs.Client
import HotCache.Proofs.Run
import HotCache.Proofs.Down
import HotCache.Proofs.Datagram
import HotCache.Proofs.Keys
import HotCache.Proofs.Loading
import HotCache.Proofs.Cached
import HotCache.Proofs.Pass
import HotCache.Proofs.Buffers
import HotCache.Proofs.Origin
import HotCache.Proofs.M3u8
import HotCache.Proofs.Survive
import HotCache.Proofs.Streams
import HotCache.Proofs.Flv
import HotCache.Proofs.UrlCode
import HotCache.Proofs.NetUtil
import HotCache.Proofs.Handler
import HotCache.Proofs.CacheRoot
import HotCache.Proofs.Rename
import HotCache.Proofs.Copies
import HotCache.Proofs.FlvScan
import HotCache.Proofs.FlvHandler
import HotCache.Proofs.Shuffle
import HotCache.Spec.Service
import HotCache.Proofs.Service
import HotCache.Proofs.Undone
import HotCache.Proofs.Coherent
import HotCache.Proofs.Carried
import HotCache.Proofs.Forest
import HotCache.Proofs.Youku
import HotCache.Proofs.Settle
import HotCache.Proofs.Snooping
import HotCache.Proofs.RequestLine
import HotCache.Proofs.Receive
import HotCache.Proofs.Wire
import HotCache.Proofs.Redirect
