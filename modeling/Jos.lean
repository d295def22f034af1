import Jos.Kern.Scan
import Jos.Kern.Privilege
import Jos.Kern.Confinement
import Jos.Kern.Failure
import Jos.Kern.EnvIds
import Jos.Kern.Rights
import Jos.Kern.Messages
import Jos.Kern.SendPage
import Jos.Kern.E1000
import Jos.Kern.Spinlock
import Jos.Kern.Console
import Jos.Kern.Kdebug
import Jos.User.Pipe
import Jos.User.PipeEnds
import Jos.User.Fsipc
import Jos.User.Httpd
import Jos.User.SpawnCall
import Jos.User.Fd
import Jos.User.Upcall
import Jos.Net.Mailbox
import Jos.Net.NsHeap
import Jos.Fs.Handouts
import Jos.Fs.Path
import Jos.Fs.Flush
import Jos.Fs.Format
import Jos.Fs.Seeks
